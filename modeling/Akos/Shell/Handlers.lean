import Akos.Shell.Ledgers
import Akos.Utils.Cutting

/-!
# What the handlers leave

Each handler releases the blocks that it gets, for every command and whatever the rest of the system answers. Only `cd`
changes a variable: the path, and the block that it is in.
-/

namespace Akos.Shell

open Contract (Ends bind_of_read)
open Fat12 (FILE Flags)

variable {σ α : Type} {sys : System σ} {v s : State σ} {l : List (Nat × List Byte)} {p q : Nat}
  {str ext cmdBuff : List Byte} {ok : Stop → Prop}

/-! ### The argument of a command -/

/-- The argument without spaces at its ends. -/
def paramOf (cmdBuff : List Byte) : List Byte := stripEnd (stripStart (Akos.seperateAndTake cmdBuff space 1))

theorem not_mem_piece (hend : 0#8 ∉ str) (seperator : Byte) (index : Nat) :
    0#8 ∉ Akos.seperateAndTake str seperator index := by
  rw [seperateAndTake_splitOn]
  rcases hpiece : (str.splitOn seperator)[index]? with - | piece
  · exact hend
  · exact fun hmem => hend (mem_of_mem_splitOn (List.mem_of_getElem? hpiece) hmem).1

theorem stripStart_sublist (str : List Byte) : (stripStart str).Sublist str := List.dropWhile_sublist _

theorem stripEnd_sublist (str : List Byte) : (stripEnd str).Sublist str := by
  have hrev := (endStripped_sublist space str.reverse).reverse
  rwa [List.reverse_reverse] at hrev

theorem ends_strip {bytes : List Byte} (h : Owns v s ((p, str ++ 0#8 :: bytes) :: l)) (hend : 0#8 ∉ str) :
    Ends ok (strip p) s fun _ s' => ∃ rest, Owns v s' ((p, stripEnd (stripStart str) ++ 0#8 :: rest) :: l) := by
  refine (ends_changeString h hend (stripStart_sublist str).length_le).bind fun _ s₁ h₁ => ?_
  obtain ⟨rest, h₁⟩ := h₁
  have hend₁ : 0#8 ∉ stripStart str := fun hmem => hend ((stripStart_sublist str).subset hmem)
  exact ends_changeString h₁ hend₁ (stripEnd_sublist _).length_le

theorem ends_takeParam (h : Owns v s l) (hend : 0#8 ∉ cmdBuff) :
    Ends (NoRoom sys) (takeParam sys cmdBuff) s fun p s' =>
      ∃ rest, Owns v s' ((p, paramOf cmdBuff ++ 0#8 :: rest) :: l) := by
  refine (ends_seperateAndTake h space 1).bind fun p s₁ h₁ => ?_
  refine (ends_strip h₁ (not_mem_piece hend space 1)).bind fun _ s₂ h₂ => ?_
  exact Ends.pure h₂

theorem not_mem_paramOf (hend : 0#8 ∉ cmdBuff) : 0#8 ∉ paramOf cmdBuff := fun hmem =>
  not_mem_piece hend space 1 (((stripEnd_sublist _).trans (stripStart_sublist _)).subset hmem)

/-! ### Paths -/

/-- The path that `join_path` makes, with the byte that it finds at the end of the first string. -/
def joined (last : Byte) (str ext : List Byte) : List Byte :=
  if countSubstrings ext backslash = 1 then str ++ (if last = backslash then [] else [backslash]) ++ ext else ext

theorem not_mem_joined (hstr : 0#8 ∉ str) (hext : 0#8 ∉ ext) (last : Byte) : 0#8 ∉ joined last str ext := by
  rw [joined]
  split
  · split
    · simp [hstr, hext]
    · simp [hstr, hext, backslash]
  · exact hext

/-- There is always a backslash. -/
theorem backslash_mem_joined {last : Byte} (hlast : str.getLast? = some last) (ext : List Byte) :
    backslash ∈ joined last str ext := by
  by_cases hcount : countSubstrings ext backslash = 1
  · rw [joined, if_pos hcount]
    by_cases hbackslash : last = backslash
    · rw [hbackslash] at hlast
      exact List.mem_append_left _ (List.mem_append_left _ (List.mem_of_getLast? hlast))
    · rw [if_neg hbackslash]
      exact List.mem_append_left _ (List.mem_append_right _ List.mem_cons_self)
  · rw [joined, if_neg hcount]
    refine List.mem_of_mem_tail (List.count_pos_iff.mp ?_)
    rw [countSubstrings] at hcount
    omega

theorem lastChar_eq (h : Owns v s l) (hstr : HasString l p str) :
    ∃ c, lastChar p s = .ok (c, s) ∧ (str ≠ [] → str.getLast? = some c) := by
  have hstring := string_eq h hstr
  obtain ⟨rest, hmem, -⟩ := hstr
  have hchar : ∃ byte, lastChar p s = .ok (str.getLast?.getD byte, s) := by
    rw [lastChar, bind_of_read hstring, bind_of_read (load_eq h hmem)]
    exact ⟨_, rfl⟩
  obtain ⟨byte, hchar⟩ := hchar
  exact ⟨_, hchar, fun hne => by rw [List.getLast?_eq_some_getLast hne, Option.getD_some]⟩

theorem ends_joinPath (h : Owns v s l) (hstr : HasString l p str) (hext : HasString l q ext) :
    Ends (NoRoom sys) (joinPath sys p q) s fun r s' =>
      ∃ last, (str ≠ [] → str.getLast? = some last) ∧ Owns v s' ((r, joined last str ext ++ [0#8]) :: l) := by
  refine Ends.read (string_eq h hext) ?_
  by_cases hcount : countSubstrings ext backslash = 1
  · simp only [joined, if_pos hcount]
    refine Ends.read (string_eq h hstr) ?_
    obtain ⟨c, hchar, hlast⟩ := lastChar_eq h hstr
    refine Ends.read hchar ?_
    refine (ends_kmalloc h _).bind fun new s₁ h₁ => ?_
    obtain ⟨block, hlength, h₁⟩ := h₁
    refine (ends_storeFirst h₁ ?_).bind fun _ s₂ h₂ => ?_
    · rw [List.length_append, List.length_singleton]
      omega
    by_cases hc : c = backslash
    · -- the end of the first string is written over
      rw [if_pos hc] at hlength
      rw [List.append_assoc] at h₂
      rw [if_pos hc, if_neg (not_not_intro hc)]
      refine (ends_storeLast h₂ (Nat.add_zero _) ?_).bind fun _ s₃ h₃ => ?_
      · simp only [List.length_append, List.length_singleton, List.length_drop]
        omega
      · exact Ends.pure ⟨c, hlast, by rwa [if_pos hc, List.append_nil, List.append_assoc]⟩
    · rw [if_neg hc] at hlength
      rw [if_neg hc, if_pos hc]
      refine (ends_storeLast h₂ ?_ ?_).bind fun _ s₃ h₃ => ?_
      · rw [List.length_append, List.length_singleton]
      · simp only [List.length_append, List.length_singleton, List.length_drop]
        omega
      · have hbackslash : [backslash].length = [0#8].length := rfl
        refine (ends_overwrite h₃ rfl hbackslash).bind fun _ s₄ h₄ => ?_
        exact Ends.pure ⟨c, hlast, by rwa [if_neg hc, List.append_assoc _ ext]⟩
  · simp only [joined, if_neg hcount]
    refine (ends_kmalloc h _).bind fun new s₁ h₁ => ?_
    obtain ⟨block, hlength, h₁⟩ := h₁
    refine (ends_fill h₁ (by rw [hlength, List.length_append, List.length_singleton])).bind fun _ s₂ h₂ => ?_
    exact Ends.pure ⟨str.getLast?.getD 0#8, fun hne => by rw [List.getLast?_eq_some_getLast hne, Option.getD_some], h₂⟩

/-- The argument, and the path that it stands for behind the current one. -/
theorem ends_pathOf (h : Owns v s l) (hpath : HasString l v.path str) (hne : str ≠ []) (hend : 0#8 ∉ cmdBuff)
    {f : Nat → Nat → List Byte → Command σ α} {post : α → State σ → Prop}
    (hf : ∀ param newPath name s' rest, backslash ∈ name → 0#8 ∉ name →
      Owns v s' ((newPath, name ++ [0#8]) :: (param, paramOf cmdBuff ++ 0#8 :: rest) :: l) →
        Ends (NoRoom sys) (f param newPath name) s' post) :
    Ends (NoRoom sys) (do
      let param ← takeParam sys cmdBuff
      let newPath ← joinPath sys (← get).path param
      let name ← string newPath
      f param newPath name) s post := by
  refine (ends_takeParam h hend).bind fun param s₁ h₁ => ?_
  obtain ⟨rest, h₁⟩ := h₁
  refine Ends.read rfl ?_
  have hparam := @HasString.head l param _ (not_mem_paramOf hend) rest
  rw [h₁.path]
  refine (ends_joinPath h₁ (hpath.cons _) hparam).bind fun newPath s₂ h₂ => ?_
  obtain ⟨last, hlast, h₂⟩ := h₂
  obtain ⟨-, -, hstr⟩ := hpath
  have hname := not_mem_joined hstr (not_mem_paramOf hend) last
  refine Ends.read (string_eq h₂ (HasString.head hname [])) ?_
  exact hf param newPath _ s₂ rest (backslash_mem_joined (hlast hne) _) hname h₂

theorem idxOf?_append_cons {c : Byte} {cs : List Byte} (hc : c ∉ cs) (rest : List Byte) :
    (cs ++ c :: rest).idxOf? c = some cs.length := by
  induction cs with
  | nil => exact (List.idxOf?_cons).trans (if_pos (beq_self_eq_true c))
  | cons d cs ih =>
    have hd : (d == c) = false := beq_false_of_ne fun heq => hc (heq ▸ List.mem_cons_self)
    rw [List.cons_append, List.idxOf?_cons, hd, if_neg Bool.false_ne_true, ih fun h => hc (List.mem_cons_of_mem _ h)]
    rfl

/-- The last backslash parts a path. -/
theorem lastBackslash_eq (hmem : backslash ∈ str) :
    ∃ folder name, str = folder ++ backslash :: name ∧ lastBackslash str = some folder.length := by
  obtain ⟨cs, rest, heq, hcs⟩ := List.eq_append_cons_of_mem (List.mem_reverse.mpr hmem)
  have hstr : str = rest.reverse ++ backslash :: cs.reverse := by
    rw [← List.reverse_reverse str, heq]
    simp
  refine ⟨rest.reverse, cs.reverse, hstr, ?_⟩
  rw [lastBackslash, heq, idxOf?_append_cons hcs, Option.map_some, hstr]
  simp only [List.length_append, List.length_cons, List.length_reverse]
  congr 1
  omega

/-- The end of a handler that opened a file. -/
theorem ends_close {b c : List Byte} (h : Owns v s ((q, b) :: (p, c) :: l)) (f : FILE) :
    Ends ok (do run (sys.volCloseFile f); kfree (some p); kfree (some q)) s fun _ s' => Owns v s' l := by
  refine (ends_run h _).bind fun _ s₁ h₁ => ?_
  exact (ends_kfree h₁.swap).bind fun _ s₂ h₂ => ends_kfree h₂

section

variable (h : Owns v s l) (hpath : HasString l v.path str) (hne : str ≠ []) (hend : 0#8 ∉ cmdBuff)

include h hpath hne hend

theorem ends_handleSize : Ends (NoRoom sys) (handleSize sys cmdBuff) s fun _ s' => Owns v s' l := by
  rw [handleSize]
  split
  · refine ends_pathOf h hpath hne hend fun param filePath name s₁ rest _ _ h₁ => ?_
    refine (ends_call h₁ _).bind fun f s₂ h₂ => ?_
    split
    · exact (ends_run h₂.2 _).bind fun _ s₃ h₃ => ends_close h₃ f
    · exact ends_close h₂.2 f
  · exact Ends.pure h

theorem ends_handleImg : Ends (NoRoom sys) (handleImg sys cmdBuff) s fun _ s' => Owns v s' l := by
  rw [handleImg]
  split
  · refine ends_pathOf h hpath hne hend fun param newPath name s₁ rest _ _ h₁ => ?_
    refine (ends_run h₁ _).bind fun _ s₂ h₂ => ?_
    exact (ends_kfree h₂).bind fun _ s₃ h₃ => ends_kfree h₃
  · exact Ends.pure h

theorem ends_createIn (flags : Flags) : Ends (NoRoom sys) (createIn sys flags cmdBuff) s fun _ s' => Owns v s' l := by
  rw [createIn]
  split
  · refine ends_pathOf h hpath hne hend fun param newPath path s₁ rest hmem hname h₁ => ?_
    obtain ⟨folder, dirName, hparts, hlast⟩ := lastBackslash_eq hmem
    have hsplit : path ++ [0#8] = folder ++ [backslash] ++ (dirName ++ [0#8]) := by
      rw [hparts]
      simp
    rw [hparts] at hname
    have hfolder : 0#8 ∉ folder := fun hmem => hname (List.mem_append_left _ hmem)
    have hdirName : 0#8 ∉ dirName := fun hmem => hname (List.mem_append_right _ (List.mem_cons_of_mem _ hmem))
    rw [hsplit] at h₁
    rw [hlast]
    have hcut : [0#8].length = [backslash].length := rfl
    refine (ends_overwrite h₁ rfl hcut).bind fun _ s₂ h₂ => ?_
    rw [List.append_assoc, List.singleton_append] at h₂
    refine Ends.read (string_eq h₂ (HasString.head hfolder _)) ?_
    refine (ends_call h₂ _).bind fun fold s₃ h₃ => ?_
    split
    · have hmem : (newPath, folder ++ [0#8] ++ dirName ++ [0#8]) ∈
          (newPath, folder ++ 0#8 :: (dirName ++ [0#8])) :: (param, paramOf cmdBuff ++ 0#8 :: rest) :: l := by simp
      have hfrom := @stringFrom_eq _ _ _ _ _ [] dirName h₃.2 (folder ++ [0#8]) hmem hdirName
      rw [List.length_append, List.length_singleton] at hfrom
      refine Ends.read hfrom ?_
      exact (ends_run h₃.2 _).bind fun _ s₄ h₄ => ends_close h₄ fold
    · exact ends_close h₃.2 fold
  · exact Ends.pure h

end

/-! ### Programs -/

/-- A path below one of `env_path`. -/
theorem ends_envPath (h : Owns v s l) (hext : HasString l q ext) (i : Nat) {f : Nat → Nat → List Byte → Command σ α}
    {post : α → State σ → Prop} (hf : ∀ subpath envNewPath name piece s', 0#8 ∉ name →
      Owns v s' ((envNewPath, name ++ [0#8]) :: (subpath, piece) :: l) →
        Ends (NoRoom sys) (f subpath envNewPath name) s' post) :
    Ends (NoRoom sys) (do
      let subpath ← seperateAndTake sys envPath semicolon i
      let envNewPath ← joinPath sys subpath q
      let name ← string envNewPath
      f subpath envNewPath name) s post := by
  have hend : 0#8 ∉ envPath := by decide
  have hsubpath := not_mem_piece hend semicolon i
  refine (ends_seperateAndTake h semicolon i).bind fun subpath s₁ h₁ => ?_
  refine (ends_joinPath h₁ (HasString.head hsubpath []) (hext.cons _)).bind fun envNewPath s₂ h₂ => ?_
  obtain ⟨last, -, h₂⟩ := h₂
  obtain ⟨-, -, hend⟩ := hext
  have hname := not_mem_joined hsubpath hend last
  refine Ends.read (string_eq h₂ (HasString.head hname [])) ?_
  exact hf subpath envNewPath _ _ s₂ hname h₂

theorem ends_execFrom {param : Nat} (h : Owns v s l) (hext : HasString l param ext) (args : Option (List Byte))
    (is : List Nat) (pid : BitVec 32) :
    Ends (NoRoom sys) (execFrom sys param args is pid) s fun _ s' => Owns v s' l := by
  induction is generalizing s pid with
  | nil => exact Ends.pure h
  | cons i rest ih =>
    refine ends_envPath h hext i fun subpath envNewPath name piece s₁ _ h₁ => ?_
    refine (ends_call h₁ _).bind fun pid s₂ h₂ => ?_
    refine (ends_kfree h₂.2.swap).bind fun _ s₃ h₃ => ?_
    refine (ends_kfree h₃).bind fun _ s₄ h₄ => ?_
    split
    · exact Ends.pure h₄
    · exact ih h₄ pid

theorem ends_findFrom {cmd : Nat} (h : Owns v s l) (hext : HasString l cmd ext) (is : List Nat) (pid : BitVec 32) :
    Ends (NoRoom sys) (findFrom sys cmd cmdBuff is pid) s fun _ s' => Owns v s' l := by
  induction is generalizing s pid with
  | nil => exact Ends.pure h
  | cons i rest ih =>
    refine ends_envPath h hext i fun subpath envNewPath name piece s₁ hname h₁ => ?_
    refine (ends_kmalloc h₁ _).bind fun withExe s₂ h₂ => ?_
    obtain ⟨block, hlength, h₂⟩ := h₂
    refine (ends_storeFirst h₂ ?_).bind fun _ s₃ h₃ => ?_
    · rw [List.length_append, List.length_singleton]
      omega
    have hending : (text ".exe" ++ [0#8]).length = ([0#8] ++ block.drop (name ++ [0#8]).length).length := by
      have hfive : (text ".exe" ++ [0#8]).length = 5 := rfl
      rw [hfive, List.singleton_append, List.length_cons, List.length_drop, List.length_append, hlength,
        List.length_singleton]
      omega
    rw [List.append_assoc] at h₃
    refine (ends_storeLast h₃ rfl hending).bind fun _ s₄ h₄ => ?_
    refine (ends_kfree h₄.swap).bind fun _ s₅ h₅ => ?_
    rw [← List.append_assoc] at h₅
    have hexe : 0#8 ∉ name ++ text ".exe" := by
      rw [List.mem_append, not_or]
      exact ⟨hname, by decide⟩
    refine Ends.read (string_eq h₅ (HasString.head hexe [])) ?_
    refine (ends_call h₅ _).bind fun pid s₆ h₆ => ?_
    refine (ends_kfree h₆.2.swap).bind fun _ s₇ h₇ => ?_
    refine (ends_kfree h₇).bind fun _ s₈ h₈ => ?_
    split
    · exact Ends.pure h₈
    · exact ih h₈ pid

theorem ends_unknownCommand {cmd : Nat} {rest : List Byte} (h : Owns v s ((cmd, ext ++ 0#8 :: rest) :: l))
    (hend : 0#8 ∉ ext) : Ends (NoRoom sys) (unknownCommand sys cmd cmdBuff) s fun _ s' => Owns v s' l := by
  have hext := @HasString.head l cmd _ hend rest
  refine (ends_findFrom h hext _ _).bind fun pid s₁ h₁ => ?_
  split
  · refine Ends.read (string_eq h₁ hext) ?_
    exact (ends_run h₁ _).bind fun _ s₃ h₃ => ends_kfree h₃
  · exact (ends_run h₁ _).bind fun _ s₂ h₂ => ends_kfree h₂

section

variable (h : Owns v s l) (hpath : HasString l v.path str) (hne : str ≠ []) (hend : 0#8 ∉ cmdBuff)

include h hpath hne hend

theorem ends_startProgram : Ends (NoRoom sys) (startProgram sys cmdBuff) s fun _ s' => Owns v s' l := by
  refine ends_pathOf h hpath hne hend fun param newPath name s₁ rest _ hname h₁ => ?_
  refine (ends_call h₁ _).bind fun pid s₂ h₂ => ?_
  have hparam := (@HasString.head l param _ (not_mem_paramOf hend) rest).cons (newPath, name ++ [0#8])
  have hfree : ∀ (pid : BitVec 32) (s' : State σ), Owns v s' ((newPath, name ++ [0#8]) ::
      (param, paramOf cmdBuff ++ 0#8 :: rest) :: l) →
        Ends (NoRoom sys) (do kfree (some newPath); kfree (some param); return pid) s' fun _ s'' => Owns v s'' l :=
    fun pid s' h' => (ends_kfree h').bind fun _ _ h'' => (ends_kfree h'').bind fun _ _ h₀ => Ends.pure h₀
  split
  · refine (ends_execFrom h₂.2 hparam _ _ _).bind fun pid s₃ h₃ => ?_
    split
    · refine Ends.read (string_eq h₃ (HasString.head hname [])) ?_
      exact (ends_run h₃ _).bind fun _ s₄ h₄ => hfree pid s₄ h₄
    · exact hfree pid s₃ h₃
  · exact hfree pid s₂ h₂.2

theorem ends_handleExec : Ends (NoRoom sys) (handleExec sys cmdBuff) s fun _ s' => Owns v s' l := by
  rw [handleExec]
  split
  · exact Ends.pure h
  · exact (ends_startProgram h hpath hne hend).bind fun pid s₁ h₁ => ends_run h₁ _

theorem ends_handleExecbg : Ends (NoRoom sys) (handleExecbg sys cmdBuff) s fun _ s' => Owns v s' l := by
  rw [handleExecbg]
  split
  · exact Ends.pure h
  · exact (ends_startProgram h hpath hne hend).bind fun pid s₁ h₁ => Ends.pure h₁

end

/-! ### The list of a directory -/

/-- Each node is a block. -/
theorem ends_openDirNodes (h : Owns v s l) (files : List FILE) :
    Ends (NoRoom sys) (openDirNodes sys files) s fun nodes s' =>
      ∃ bs, bs.map Prod.fst = nodes.map Prod.fst ∧ Owns v s' (bs ++ l) := by
  induction files generalizing s l with
  | nil => exact Ends.pure ⟨[], rfl, h⟩
  | cons f files ih =>
    refine (ends_kmalloc h _).bind fun node s₁ h₁ => ?_
    obtain ⟨block, -, h₁⟩ := h₁
    refine (ih h₁).bind fun nodes s₂ h₂ => ?_
    obtain ⟨bs, hbs, h₂⟩ := h₂
    refine Ends.pure ⟨(node, block) :: bs, ?_, h₂.of_perm List.perm_middle⟩
    rw [List.map_cons, List.map_cons, hbs]

/-- The loop releases them all. -/
theorem ends_lsLoop {nodes : List (Nat × FILE)} {bs : List (Nat × List Byte)} (h : Owns v s (bs ++ l))
    (hbs : bs.map Prod.fst = nodes.map Prod.fst) (sz fls dirs : BitVec 32) :
    Ends ok (lsLoop sys nodes sz fls dirs) s fun _ s' => Owns v s' l := by
  induction nodes generalizing s bs sz fls dirs with
  | nil =>
    rw [List.map_nil, List.map_eq_nil_iff] at hbs
    rw [hbs, List.nil_append] at h
    exact (ends_run h _).bind fun _ s₁ h₁ => ends_run h₁ _
  | cons head nodes ih =>
    obtain ⟨node, f⟩ := head
    cases bs with
    | nil => exact absurd hbs (by simp)
    | cons b bs =>
      obtain ⟨name, block⟩ := b
      rw [List.map_cons, List.map_cons, List.cons.injEq] at hbs
      obtain ⟨rfl, hbs⟩ := hbs
      refine (ends_run h _).bind fun _ s₁ h₁ => ?_
      refine (ends_run h₁ _).bind fun _ s₂ h₂ => ?_
      refine (ends_kfree h₂).bind fun _ s₃ h₃ => ?_
      split
      · exact ih h₃ hbs _ _ _
      · exact ih h₃ hbs _ _ _

theorem ends_handleLs (h : Owns v s l) (hpath : HasString l v.path str) :
    Ends (NoRoom sys) (handleLs sys) s fun _ s' => Owns v s' l := by
  refine Ends.read rfl ?_
  rw [h.path]
  refine Ends.read (string_eq h hpath) ?_
  refine (ends_call h _).bind fun files s₁ h₁ => ?_
  refine (ends_openDirNodes h₁.2 files).bind fun lst s₂ h₂ => ?_
  obtain ⟨bs, hbs, h₂⟩ := h₂
  exact ends_lsLoop h₂ hbs _ _ _

theorem ends_handleHelp (h : Owns v s l) (hend : 0#8 ∉ cmdBuff) :
    Ends (NoRoom sys) (handleHelp sys cmdBuff) s fun _ s' => Owns v s' l := by
  rw [handleHelp]
  split
  · exact ends_run h _
  · split
    · exact ends_run h _
    · refine (ends_seperateAndTake h space 1).bind fun param s₁ h₁ => ?_
      refine Ends.read (string_eq h₁ (HasString.head (not_mem_piece hend space 1) [])) ?_
      split
      · exact (ends_run h₁ _).bind fun _ s₂ h₂ => ends_kfree h₂
      · exact (ends_run h₁ _).bind fun _ s₂ h₂ => ends_kfree h₂

end Akos.Shell
