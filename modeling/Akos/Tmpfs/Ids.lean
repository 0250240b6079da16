import Akos.Tmpfs.Chains

/-!
# Ids

A new block gets the number of files and directories in front of it as its id. When a continuation block in
front of a file is freed and its place goes to a file or a directory, that number can be in use.
-/

namespace Akos.Tmpfs.Arena

variable {s s' s'' : Arena} {b n x fid cur fuel : Nat}

/-! ### Writing keeps the ids -/

/-- A place a write is at: a block of the chain of the file. -/
structure Writing (s : Arena) (fid b cur : Nat) : Prop where
  opened : s.Opened fid b
  occupied : (s cur).occupied = true
  fid_eq : (s cur).fid = fid

namespace Writing

theorem next (h : s.Writing fid b cur) (hchild : (s cur).childBlock = some n) : s.Writing fid b n := by
  obtain ⟨hocc, -, -, hfid⟩ := h.opened.linked.child cur n h.occupied hchild
  exact ⟨h.opened, hocc, hfid.trans h.fid_eq⟩

theorem sameLinks (h : s.Writing fid b cur) (hsame : s.SameLinks s') : s'.Writing fid b cur :=
  ⟨h.opened.sameLinks hsame, (hsame.occupied cur).trans h.occupied, (hsame.fid cur).trans h.fid_eq⟩

theorem extendFile (h : s.Writing fid b cur) (hextend : s.extendFile (s cur).fid = some s') :
    s'.Writing fid b cur ∧ s.KeepsIds s' := by
  rw [h.fid_eq] at hextend
  obtain ⟨last, n, hlast, hn, rfl⟩ := h.opened.extendFile_spec hextend
  have hcur : cur ≠ n := by
    rintro rfl
    have hfree := (firstFree_eq_some_iff.mp hn).1
    rw [h.occupied] at hfree
    cases hfree
  refine ⟨⟨h.opened.extend hlast hn, ?_, ?_⟩, keepsIds_extended⟩
  · rw [extended_old hcur]
    exact h.occupied
  · rw [extended_old hcur]
    exact h.fid_eq

theorem skipFull {r : Arena × Nat} (h : s.Writing fid b cur) (hskip : Arena.skipFull fuel s cur = some r) :
    r.1.Writing fid b r.2 ∧ s.KeepsIds r.1 := by
  induction fuel generalizing s cur with
  | zero => cases hskip
  | succ fuel ih =>
    rw [Arena.skipFull] at hskip
    split at hskip
    · obtain ⟨t, ht, hskip⟩ := Option.bind_eq_some_iff.mp hskip
      obtain ⟨child, hchild, hskip⟩ := Option.bind_eq_some_iff.mp hskip
      have hext : t.Writing fid b cur ∧ s.KeepsIds t := by
        split at ht
        · exact h.extendFile ht
        · obtain rfl := Option.some.inj ht
          exact ⟨h, (Shrinks.refl s).keepsIds⟩
      obtain ⟨hw, hkeeps⟩ := ih (hext.1.next hchild) hskip
      exact ⟨hw, hext.2.trans hkeeps⟩
    · obtain rfl := Option.some.inj hskip
      exact ⟨h, (Shrinks.refl s).keepsIds⟩

theorem writeByte {r : Arena × Nat} {c : UInt8} (h : s.Writing fid b cur)
    (hwrite : Arena.writeByte (s, cur) c = some r) : r.1.Writing fid b r.2 ∧ s.KeepsIds r.1 := by
  rw [Arena.writeByte] at hwrite
  dsimp only at hwrite
  have hsame : s.SameLinks (s.set cur { s cur with
      data := Function.update (s cur).data (s cur).dataPointer c
      dataPointer := (s cur).dataPointer + 1 }) :=
    SameLinks.set rfl rfl rfl rfl rfl rfl
  have hkeeps := hsame.shrinks.keepsIds
  split at hwrite
  · obtain ⟨t, ht, hwrite⟩ := Option.bind_eq_some_iff.mp hwrite
    obtain ⟨child, hchild, hwrite⟩ := Option.bind_eq_some_iff.mp hwrite
    obtain rfl := Option.some.inj hwrite
    obtain ⟨hw, hkeeps'⟩ := (h.sameLinks hsame).extendFile ht
    exact ⟨hw.next hchild, hkeeps.trans hkeeps'⟩
  · obtain rfl := Option.some.inj hwrite
    exact ⟨h.sameLinks hsame, hkeeps⟩

theorem writeBytes {r : Arena × Nat} {buffer : List UInt8} (h : s.Writing fid b cur)
    (hwrite : buffer.foldlM Arena.writeByte (s, cur) = some r) : r.1.Writing fid b r.2 ∧ s.KeepsIds r.1 := by
  induction buffer generalizing s cur with
  | nil =>
    obtain rfl := Option.some.inj hwrite
    exact ⟨h, (Shrinks.refl s).keepsIds⟩
  | cons c buffer ih =>
    rw [List.foldlM_cons] at hwrite
    obtain ⟨t, ht, hwrite⟩ := Option.bind_eq_some_iff.mp hwrite
    obtain ⟨hw, hkeeps⟩ := h.writeByte ht
    obtain ⟨hw', hkeeps'⟩ := ih hw hwrite
    exact ⟨hw', hkeeps.trans hkeeps'⟩

end Writing

theorem Opened.resetFile (h : s.Opened fid b) (hreset : s.resetFile fid = some s') :
    s'.Opened fid b ∧ s.Shrinks s' := by
  rw [Arena.resetFile, h.faddr, Option.bind_eq_bind, Option.bind_some] at hreset
  obtain ⟨t, ht, hreset⟩ := Option.bind_eq_some_iff.mp hreset
  obtain rfl := Option.some.inj hreset
  obtain ⟨hopened, hshrinks, -⟩ := resetChildren_spec h ht
  have hsame : t.SameLinks (t.set b { t b with dataPointer := 0 }) := SameLinks.set rfl rfl rfl rfl rfl rfl
  exact ⟨hopened.sameLinks hsame, hshrinks.trans hsame.shrinks⟩

theorem tfsysWrite_spec {file : FILE} {buffer : List UInt8} {r : Arena × FILE} (hs : s.Linked)
    (hwrite : s.tfsysWrite file buffer = some r) : r.1.Linked ∧ s.KeepsIds r.1 := by
  rw [tfsysWrite] at hwrite
  obtain ⟨b, hb, hwrite⟩ := Option.bind_eq_some_iff.mp hwrite
  obtain ⟨t, ht, hwrite⟩ := Option.bind_eq_some_iff.mp hwrite
  have hopened := Opened.of_lookup hs hb
  have hreset : t.Opened file.id b ∧ s.Shrinks t := by
    split at ht
    · exact hopened.resetFile ht
    · obtain rfl := Option.some.inj ht
      exact ⟨hopened, Shrinks.refl s⟩
  rw [hreset.1.faddr, Option.bind_eq_bind, Option.bind_some] at hwrite
  obtain ⟨u, hu, hwrite⟩ := Option.bind_eq_some_iff.mp hwrite
  obtain ⟨v, hv, hwrite⟩ := Option.bind_eq_some_iff.mp hwrite
  obtain rfl := Option.some.inj hwrite
  have hw : t.Writing file.id b b := ⟨hreset.1, hreset.1.occupied, hreset.1.fid_eq⟩
  obtain ⟨hw', hkeeps⟩ := hw.skipFull hu
  obtain ⟨hw'', hkeeps'⟩ := hw'.writeBytes hv
  exact ⟨hw''.opened.linked, (hreset.2.keepsIds.trans hkeeps).trans hkeeps'⟩

/-! ### New blocks -/

/-- What a new file or directory adds to the arena. -/
theorem createBlock_spec {parent : Nat} {type : BlockType} {name : List UInt8} {r : Nat × Arena}
    (htype : type ≠ .subFile) (h : s.createBlock parent type name = some r) :
    ∃ fid, s.firstFree = some r.1 ∧ s.getNextFid = some fid ∧
      (s.set r.1 (newBlock parent type fid r.1 name)).SameLinks r.2 := by
  rw [createBlock] at h
  obtain ⟨n, hn, h⟩ := Option.bind_eq_some_iff.mp h
  cases type with
  | subFile => exact absurd rfl htype
  | file =>
    obtain ⟨fid, hfid, h⟩ := Option.bind_eq_some_iff.mp h
    obtain ⟨t, ht, h⟩ := Option.bind_eq_some_iff.mp h
    obtain rfl := Option.some.inj h
    exact ⟨fid, hn, hfid, addRecordToDir_sameLinks ht⟩
  | dir =>
    obtain ⟨fid, hfid, h⟩ := Option.bind_eq_some_iff.mp h
    obtain ⟨t, ht, h⟩ := Option.bind_eq_some_iff.mp h
    obtain ⟨u, hu, h⟩ := Option.bind_eq_some_iff.mp h
    obtain ⟨v, hv, h⟩ := Option.bind_eq_some_iff.mp h
    obtain rfl := Option.some.inj h
    exact ⟨fid, hn, hfid, ((addRecordToDir_sameLinks ht).trans (addRecordToDir_sameLinks hu)).trans
      (addRecordToDir_sameLinks hv)⟩

/-- The files and directories in use have different ids. -/
def UniqueIds (s : Arena) : Prop :=
  ∀ b c, (s b).occupied = true → (s b).type ≠ .subFile → (s c).occupied = true → (s c).type ≠ .subFile →
    (s b).fid = (s c).fid → b = c

/-- The number of files and directories in front of the first free block is the id of none in use. -/
def FreshCount (s : Arena) : Prop :=
  ∀ n, s.firstFree = some n → ∀ b, (s b).occupied = true → (s b).type ≠ .subFile →
    (s b).fid ≠ (List.range n).countP fun x => (s x).type ≠ .subFile

theorem KeepsIds.uniqueIds (h : s.KeepsIds s') (hs : s.UniqueIds) : s'.UniqueIds := by
  intro b c hb htb hc htc hfid
  obtain ⟨hb', htype, hfidb⟩ := h b hb htb
  obtain ⟨hc', htype', hfidc⟩ := h c hc htc
  exact hs b c hb' (htype ▸ htb) hc' (htype' ▸ htc) (by rw [← hfidb, ← hfidc, hfid])

theorem getNextFid_eq (hn : s.firstFree = some n) :
    s.getNextFid = some ((List.range n).countP fun x => (s x).type ≠ .subFile) := by
  rw [getNextFid, hn, Option.map_some]
  congr 2
  funext x
  rw [counts]
  cases (s x).type <;> rfl

theorem createBlock_linked {parent : Nat} {type : BlockType} {name : List UInt8} {r : Nat × Arena}
    (hs : s.Linked) (htype : type ≠ .subFile) (h : s.createBlock parent type name = some r) : r.2.Linked := by
  obtain ⟨fid, hn, -, hsame⟩ := createBlock_spec htype h
  exact hsame.linked (hs.create hn rfl htype rfl rfl)

theorem createBlock_uniqueIds {parent : Nat} {type : BlockType} {name : List UInt8} {r : Nat × Arena}
    (hunique : s.UniqueIds) (hfresh : s.FreshCount) (htype : type ≠ .subFile)
    (h : s.createBlock parent type name = some r) : r.2.UniqueIds := by
  obtain ⟨fid, hn, hfid, hsame⟩ := createBlock_spec htype h
  refine hsame.shrinks.keepsIds.uniqueIds ?_
  obtain rfl := Option.some.inj ((getNextFid_eq hn).symm.trans hfid)
  intro b c hb htb hc htc heq
  obtain rfl | hbn := eq_or_ne b r.1
  · obtain rfl | hcn := eq_or_ne c r.1
    · rfl
    · rw [set_of_ne hcn] at hc htc heq
      rw [set_self] at heq
      exact absurd heq.symm (hfresh _ hn c hc htc)
  · rw [set_of_ne hbn] at hb htb heq
    obtain rfl | hcn := eq_or_ne c r.1
    · rw [set_self] at heq
      exact absurd heq (hfresh _ hn b hb htb)
    · rw [set_of_ne hcn] at hc htc heq
      exact hunique b c hb htb hc htc heq

/-- An id that one file or directory alone has leads to it. -/
theorem UniqueIds.faddr (hunique : s.UniqueIds) (hs : s.Linked) (hb : (s b).occupied = true)
    (htype : (s b).type ≠ .subFile) : s.getFaddrById (s b).fid = some b := by
  refine getFaddrById_eq_some_iff.mpr ⟨⟨rfl, htype⟩, (hs.bid b hb).1, fun x hx hfid => ?_⟩
  by_contra hsub
  obtain ⟨hroot, hdir, hzero⟩ := hs.root
  obtain ⟨used, hfree, hblank⟩ := hs.blank
  cases hocc : (s x).occupied with
  | true =>
    have heq := hunique x b hocc hsub hb htype hfid
    omega
  | false =>
    have hxused : x < used := by
      by_contra hle
      have hbfree := hfree b (by omega)
      rw [hb] at hbfree
      cases hbfree
    have hfid0 := (hblank x hocc hxused).1
    have heq := hunique 0 b hroot (by rw [hdir]; decide) hb htype (by rw [hzero, ← hfid, hfid0])
    omega

/-! ### Runs -/

/-- The calls that change the arena. -/
inductive Call
  | create (file : FILE) (fname : List UInt8) (flags : Flags)
  | write (file : FILE) (buffer : List UInt8)
  | free (bid : Nat)

/-- A call that returns, whatever the handle it is given. -/
inductive Step : Arena → Call → Arena → Prop
  | create {s s' : Arena} {file : FILE} {fname : List UInt8} {flags : Flags} :
      s.tfsysCreate file fname flags = some s' → Step s (.create file fname flags) s'
  | write {s s' : Arena} {file file' : FILE} {buffer : List UInt8} :
      s.tfsysWrite file buffer = some (s', file') → Step s (.write file buffer) s'
  | free {s s' : Arena} {bid fuel : Nat} {freed : Bool} :
      freeBlock fuel s bid = some (freed, s') → Step s (.free bid) s'

/-- What a call asks of the state before it, for the ids to stay apart. -/
def FreshFor (s : Arena) : Call → Prop
  | .create _ _ _ => s.FreshCount
  | _ => True

/-- With the base directory alone in use, there are no chains. -/
theorem linked_of_base {block : Block} (hfree : ∀ b, (s b).occupied = false) (hocc : block.occupied = true)
    (hdir : block.type = .dir) (hfid : block.fid = 0) (hbid : block.bid = 0) (hchild : block.childBlock = none) :
    (s.set 0 block).Linked ∧ (s.set 0 block).UniqueIds := by
  have hbase : ∀ b, (s.set 0 block b).occupied = true → b = 0 := by
    intro b hb
    by_contra hne
    rw [set_of_ne hne, hfree b] at hb
    cases hb
  refine ⟨?_, fun b c hb _ hc _ _ => (hbase b hb).trans (hbase c hc).symm⟩
  constructor
  · rw [set_self]
    exact ⟨hocc, hdir, hfid⟩
  · intro b hb
    obtain rfl := hbase b hb
    rw [set_self]
    exact ⟨by decide, hbid⟩
  · intro b hb _
    obtain rfl := hbase b hb
    rw [set_self]
    exact hchild
  · intro p c hp hc
    obtain rfl := hbase p hp
    rw [set_self, hchild] at hc
    cases hc
  · intro c hc htype
    obtain rfl := hbase c hc
    rw [set_self, hdir] at htype
    cases htype
  · refine ⟨id, fun p c hp hc => ?_⟩
    obtain rfl := hbase p hp
    rw [set_self, hchild] at hc
    cases hc
  · refine ⟨1, fun b hb => ?_, fun b hb hlt => ?_⟩
    · rw [set_of_ne (by omega)]
      exact hfree b
    · obtain rfl : b = 0 := by omega
      rw [set_self, hocc] at hb
      cases hb

theorem tfsysInit_spec {memory : Arena} (h : tfsysInit memory = some s) : s.Linked ∧ s.UniqueIds := by
  obtain ⟨t, ht, hu⟩ := Option.bind_eq_some_iff.mp h
  have hsame := (addRecordToDir_sameLinks ht).trans (addRecordToDir_sameLinks hu)
  exact ⟨hsame.linked (linked_of_base (fun _ => rfl) rfl rfl rfl rfl rfl).1,
    hsame.shrinks.keepsIds.uniqueIds (linked_of_base (fun _ => rfl) rfl rfl rfl rfl rfl).2⟩

/-- `tfsys_create` changes nothing or makes a file or a directory. -/
theorem tfsysCreate_spec {file : FILE} {fname : List UInt8} {flags : Flags}
    (h : s.tfsysCreate file fname flags = some s') :
    s = s' ∨ ∃ parent type r, type ≠ BlockType.subFile ∧ s.createBlock parent type fname = some r ∧ r.2 = s' := by
  unfold tfsysCreate at h
  split at h
  · obtain ⟨parent, -, h⟩ := Option.bind_eq_some_iff.mp h
    obtain ⟨r, hr, rfl⟩ := Option.map_eq_some_iff.mp h
    exact Or.inr ⟨parent, .dir, r, by decide, hr, rfl⟩
  · obtain ⟨parent, -, h⟩ := Option.bind_eq_some_iff.mp h
    obtain ⟨r, hr, rfl⟩ := Option.map_eq_some_iff.mp h
    exact Or.inr ⟨parent, .file, r, by decide, hr, rfl⟩
  · exact Or.inl (Option.some.inj h)

theorem Step.linked {call : Call} (hs : s.Linked) (h : Step s call s') : s'.Linked := by
  cases h with
  | create h =>
    obtain rfl | ⟨parent, type, r, htype, hr, rfl⟩ := tfsysCreate_spec h
    · exact hs
    · exact createBlock_linked hs htype hr
  | write h => exact (tfsysWrite_spec hs h).1
  | free h => exact (freeBlock_spec hs h).1

theorem Step.uniqueIds {call : Call} (hs : s.Linked) (hunique : s.UniqueIds) (hfresh : s.FreshFor call)
    (h : Step s call s') : s'.UniqueIds := by
  cases h with
  | create h =>
    obtain rfl | ⟨parent, type, r, htype, hr, rfl⟩ := tfsysCreate_spec h
    · exact hunique
    · exact createBlock_uniqueIds hunique hfresh htype hr
  | write h => exact (tfsysWrite_spec hs h).2.uniqueIds hunique
  | free h => exact (freeBlock_spec hs h).2.keepsIds.uniqueIds hunique

/-- Over every run from the start the links hold, whatever the ids. -/
theorem linked_of_run {memory : Arena} {calls : List Call} (hinit : tfsysInit memory = some s)
    (hrun : Transition.Run Step s calls s') : s'.Linked :=
  hrun.invariant Linked (fun _ _ _ hs h => h.linked hs) (tfsysInit_spec hinit).1

/-- Without continuation blocks the id of a file or directory is the number of its block. -/
def Plain (s : Arena) : Prop := ∀ b, (s b).occupied = true → (s b).type ≠ .subFile ∧ (s b).fid = b

theorem Plain.count_eq (h : s.Plain) (hn : s.firstFree = some n) :
    ((List.range n).countP fun x => (s x).type ≠ .subFile) = n := by
  obtain ⟨-, -, hfront⟩ := firstFree_eq_some_iff.mp hn
  rw [List.countP_eq_length.mpr fun x hx => ?_, List.length_range]
  exact decide_eq_true (h x (hfront x (List.mem_range.mp hx))).1

theorem Plain.freshCount (h : s.Plain) : s.FreshCount := by
  intro n hn b hb _
  rw [h.count_eq hn, (h b hb).2]
  rintro rfl
  rw [(firstFree_eq_some_iff.mp hn).1] at hb
  cases hb

theorem tfsysInit_plain {memory : Arena} (h : tfsysInit memory = some s) : s.Plain := by
  obtain ⟨t, ht, hu⟩ := Option.bind_eq_some_iff.mp h
  have hsame := (addRecordToDir_sameLinks ht).trans (addRecordToDir_sameLinks hu)
  intro b hb
  rw [hsame.occupied] at hb
  rw [hsame.type, hsame.fid]
  obtain rfl | hne := eq_or_ne b 0
  · rw [set_self]
    exact ⟨by simp, rfl⟩
  · rw [set_of_ne hne] at hb
    cases hb

/-- As long as no write makes a continuation block, the state stays plain. -/
theorem Step.plain {call : Call} (hs : s.Linked) (hplain : s.Plain)
    (hsub : ∀ file buffer, call = .write file buffer → ∀ b, (s' b).occupied = true → (s' b).type ≠ .subFile)
    (h : Step s call s') : s'.Plain := by
  cases h with
  | create h =>
    obtain rfl | ⟨parent, type, r, htype, hr, rfl⟩ := tfsysCreate_spec h
    · exact hplain
    · obtain ⟨fid, hn, hfid, hsame⟩ := createBlock_spec htype hr
      intro b hb
      rw [hsame.occupied] at hb
      rw [hsame.type, hsame.fid]
      obtain rfl | hne := eq_or_ne b r.1
      · rw [set_self]
        obtain rfl := Option.some.inj ((getNextFid_eq hn).symm.trans hfid)
        exact ⟨htype, hplain.count_eq hn⟩
      · rw [set_of_ne hne] at hb ⊢
        exact hplain b hb
  | write h =>
    intro b hb
    have htype := hsub _ _ rfl b hb
    obtain ⟨hocc, -, hfid⟩ := (tfsysWrite_spec hs h).2 b hb htype
    exact ⟨htype, hfid.trans (hplain b hocc).2⟩
  | free h =>
    intro b hb
    obtain ⟨hocc, htype, hfid⟩ := (freeBlock_spec hs h).2 b hb
    rw [htype, hfid]
    exact hplain b hocc

/-- Without continuation blocks no two files or directories ever share an id. -/
theorem uniqueIds_of_plain_run {memory : Arena} {calls : List Call} (hinit : tfsysInit memory = some s)
    (hrun : Transition.Run (fun s call t => Step s call t ∧ ∀ b, (t b).occupied = true → (t b).type ≠ .subFile)
      s calls s') : s'.UniqueIds := by
  obtain ⟨-, hplain⟩ := hrun.invariant (fun s => s.Linked ∧ s.Plain)
    (fun _ _ _ hs h => ⟨h.1.linked hs.1, h.1.plain hs.1 hs.2 fun _ _ _ => h.2⟩)
    ⟨(tfsysInit_spec hinit).1, tfsysInit_plain hinit⟩
  intro b c hb _ hc _ hfid
  rw [← (hplain b hb).2, ← (hplain c hc).2, hfid]

/-- Bytes that leave room in the block they go to. -/
theorem writeBytes_fill {buffer : List UInt8} (hroom : (s b).dataPointer + buffer.length < payload) :
    buffer.foldlM writeByte (s, b) = some (s.set b (fill (s b) buffer), b) := by
  induction buffer generalizing s with
  | nil =>
    have hfill : fill (s b) [] = s b := by
      rw [fill]
      simp
    rw [List.foldlM_nil, hfill, set, Function.update_eq_self]
    rfl
  | cons c buffer ih =>
    rw [List.length_cons] at hroom
    have hstep : writeByte (s, b) c = some (s.set b (fill (s b) [c]), b) := by
      rw [writeByte, fill_singleton]
      dsimp only
      rw [set_self, if_neg]
      dsimp only
      omega
    rw [List.foldlM_cons, hstep, Option.bind_eq_bind, Option.bind_some, ih]
    · rw [set_self, fill_cons, set_set]
    · rw [set_self]
      simp only [fill, List.length_singleton]
      omega

/-- A first write that leaves room in the first block. -/
theorem Opened.tfsysWrite_fill {file : FILE} {buffer : List UInt8} (h : s.Opened file.id b)
    (hchild : (s b).childBlock = none) (hpos : file.position = 0) (hroom : buffer.length < payload) :
    s.tfsysWrite file buffer = some (s.set b (fill { s b with dataPointer := 0 } buffer),
      { file with position := file.position + buffer.length }) := by
  have hreset : s.resetFile file.id = some (s.set b { s b with dataPointer := 0 }) := by
    rw [Arena.resetFile, h.faddr, Option.bind_eq_bind, Option.bind_some, resetChildren, hchild]
    rfl
  have hsame : s.SameLinks (s.set b { s b with dataPointer := 0 }) := SameLinks.set rfl rfl rfl rfl rfl rfl
  have hskip : skipFull blockCount (s.set b { s b with dataPointer := 0 }) b =
      some (s.set b { s b with dataPointer := 0 }, b) := by
    rw [skipFull, set_self, if_neg]
    exact Nat.ne_of_lt (show 0 < payload by decide)
  have hbytes : buffer.foldlM writeByte (s.set b { s b with dataPointer := 0 }, b) =
      some (s.set b (fill { s b with dataPointer := 0 } buffer), b) := by
    rw [writeBytes_fill, set_self, set_set]
    · rw [set_self, Nat.zero_add]
      exact hroom
  rw [tfsysWrite, h.lookup, if_pos hpos, hreset]
  simp only [Option.bind_eq_bind, Option.bind_some, (h.sameLinks hsame).faddr, hskip, hbytes]

end Akos.Tmpfs.Arena
