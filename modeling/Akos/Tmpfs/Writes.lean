import Akos.Lib.Traced
import Akos.Tmpfs.Ids

/-!
# What the RAM file system writes

The calls that change the arena once more, with the bytes they write into memory. The searches of
`create_block` and `add_record_to_dir` have no bound; where they leave the arena or the directory, what stands
there decides how far they go, and the trace ends with the first write behind the end.
-/

namespace Akos.Tmpfs

/-- `TFSYS_BASE` -/
abbrev tfsysBase : Nat := 0xC0500000

/-- `TFSYS_CEILING` -/
abbrev tfsysCeiling : Nat := 0xC0600000

/-- Bytes that go to memory, and the block of the directory when they are a record's. -/
structure Write where
  address : Nat
  length : Nat
  dir : Option Nat

def blockAddress (b : Nat) : Nat := tfsysBase + b * 4096

/-- The place of a record, behind the metadata. -/
def recordAddress (dir slot : Nat) : Nat := blockAddress dir + (60 + slot * 44)

/-- How many blocks behind the arena and how many records behind a directory are taken for occupied. -/
structure Behind where
  blocks : Nat
  records : Nat

namespace Logged

variable {s : Arena} {behind : Behind} {b fid parent fuel : Nat}

/-- `add_record_to_dir`: the link in the first record, then the record. -/
def addRecordToDir (behind : Behind) (s : Arena) (fid : Nat) (name : List UInt8) (dir : Nat) :
    Traced Write Arena := do
  let slot := ((List.range recordCount).find? fun slot => !((s dir).records slot).occupied).getD
    (recordCount + behind.records)
  .emit [⟨recordAddress dir 0 + 40, 4, some dir⟩, ⟨recordAddress dir slot, 44, some dir⟩]
  .lift (s.addRecordToDir fid name dir)

/-- `create_block`: the block is cleared, then the metadata copied. -/
def createBlock (behind : Behind) (s : Arena) (parent : Nat) (type : BlockType) (name : List UInt8) :
    Traced Write (Nat × Arena) := do
  let place := s.firstFree.getD (blockCount + behind.blocks)
  .emit [⟨blockAddress place, 4096, none⟩, ⟨blockAddress place, 60, none⟩]
  let base ← .lift s.firstFree
  match type with
  | .subFile => pure (base, s.set base (Arena.newBlock parent .subFile (s parent).fid base name))
  | .file => do
    let fid ← .lift s.getNextFid
    let s ← addRecordToDir behind (s.set base (Arena.newBlock parent .file fid base name)) fid (name.take 31) parent
    pure (base, s)
  | .dir => do
    let fid ← .lift s.getNextFid
    let s ← addRecordToDir behind (s.set base (Arena.newBlock parent .dir fid base name)) fid (name.take 31) parent
    let s ← addRecordToDir behind s fid [46] base
    let s ← addRecordToDir behind s (s parent).fid [46, 46] base
    pure (base, s)

/-- `tfsys_create` -/
def tfsysCreate (behind : Behind) (s : Arena) (file : FILE) (fname : List UInt8) (flags : Flags) :
    Traced Write Arena :=
  match file.flags, flags with
  | .directory, .directory => do
    let parent ← .lift (s.lookup file.id .dir)
    let r ← createBlock behind s parent .dir fname
    pure r.2
  | .directory, .file => do
    let parent ← .lift (s.lookup file.id .dir)
    let r ← createBlock behind s parent .file fname
    pure r.2
  | _, _ => pure s

/-- `extend_file`: the new block, then the link to it. -/
def extendFile (behind : Behind) (s : Arena) (fid : Nat) : Traced Write Arena := do
  let base ← .lift (s.getFaddrById fid)
  let last ← .lift (s.lastOf blockCount base)
  let (new, s) ← createBlock behind s last .subFile []
  .emit [⟨blockAddress last + 4, 4, none⟩]
  pure (s.set last { s last with childBlock := some new })

/-- `free_block` of a continuation block, for which `reset_file` calls it: the links of its neighbours, then the
block is cleared. -/
def freeBlock (s : Arena) (bid : Nat) : Traced Write Arena := do
  let parent ← .lift (s bid).parentBlock
  .emit (⟨blockAddress parent + 4, 4, none⟩ ::
    (s bid).childBlock.toList.map fun child => ⟨blockAddress child, 4, none⟩)
  .emit [⟨blockAddress bid, 4096, none⟩]
  let r ← .lift (s.freeBlock blockCount bid)
  pure r.2

/-- The loop of `reset_file`. -/
def resetChildren : Nat → Arena → Nat → Traced Write Arena
  | 0, _, _ => .lift none
  | fuel + 1, s, b =>
    match (s b).childBlock with
    | none => pure s
    | some child => do
      let s ← freeBlock s (s child).bid
      resetChildren fuel s b

/-- `reset_file` -/
def resetFile (s : Arena) (fid : Nat) : Traced Write Arena := do
  let b ← .lift (s.getFaddrById fid)
  let s ← resetChildren blockCount s b
  .emit [⟨blockAddress b + 20, 4, none⟩]
  pure (s.set b { s b with dataPointer := 0 })

/-- The loop of `tfsys_write` to the first block with room. -/
def skipFull (behind : Behind) : Nat → Arena → Nat → Traced Write (Arena × Nat)
  | 0, _, _ => .lift none
  | fuel + 1, s, b =>
    if (s b).dataPointer = payload then do
      let s ← (if (s b).childBlock.isNone then extendFile behind s (s b).fid else pure s)
      let child ← .lift (s b).childBlock
      skipFull behind fuel s child
    else pure (s, b)

/-- The body of the loop of `tfsys_write` over the bytes: the byte, then the pointer to the next one. -/
def writeByte (behind : Behind) (s : Arena × Nat) (c : UInt8) : Traced Write (Arena × Nat) := do
  let b := s.2
  let block := s.1 b
  .emit [⟨blockAddress b + (60 + block.dataPointer), 1, none⟩, ⟨blockAddress b + 20, 4, none⟩]
  let s := s.1.set b { block with
    data := Function.update block.data block.dataPointer c
    dataPointer := block.dataPointer + 1 }
  if (s b).dataPointer = payload then do
    let s ← extendFile behind s (s b).fid
    let child ← .lift (s b).childBlock
    pure (s, child)
  else pure (s, b)

/-- `tfsys_write` -/
def tfsysWrite (behind : Behind) (s : Arena) (file : FILE) (buffer : List UInt8) :
    Traced Write (Arena × FILE) := do
  let _ ← .lift (s.lookup file.id .file)
  let s ← (if file.position = 0 then resetFile s file.id else pure s)
  let b ← .lift (s.getFaddrById file.id)
  let s ← skipFull behind blockCount s b
  let s ← buffer.foldlM (writeByte behind) s
  pure (s.1, { file with position := file.position + buffer.length })

/-! ### The results are those of the calls -/

theorem addRecordToDir_result {name : List UInt8} :
    (addRecordToDir behind s fid name b).result = s.addRecordToDir fid name b := by
  rw [addRecordToDir, Traced.result_bind]
  rfl

theorem createBlock_result {type : BlockType} {name : List UInt8} :
    (createBlock behind s parent type name).result = s.createBlock parent type name := by
  rw [createBlock, Arena.createBlock, Traced.result_bind, Traced.result_emit, Option.bind_some, Traced.result_bind,
    Traced.result_lift, Option.bind_eq_bind]
  congr 1
  funext base
  cases type with
  | subFile => rfl
  | file =>
    simp only [Traced.result_bind, Traced.result_lift, addRecordToDir_result]
    rfl
  | dir =>
    simp only [Traced.result_bind, Traced.result_lift, addRecordToDir_result]
    rfl

theorem tfsysCreate_result {file : FILE} {fname : List UInt8} {flags : Flags} :
    (tfsysCreate behind s file fname flags).result = s.tfsysCreate file fname flags := by
  unfold tfsysCreate Arena.tfsysCreate
  cases file.flags with
  | file => rfl
  | invalid => rfl
  | directory =>
    cases flags with
    | invalid => rfl
    | file =>
      simp only [Traced.result_bind, Traced.result_lift, createBlock_result, Option.map_eq_bind]
      rfl
    | directory =>
      simp only [Traced.result_bind, Traced.result_lift, createBlock_result, Option.map_eq_bind]
      rfl

theorem extendFile_result : (extendFile behind s fid).result = s.extendFile fid := by
  simp only [extendFile, Arena.extendFile, Traced.result_bind, Traced.result_lift, Traced.result_emit,
    Traced.result_pure, createBlock_result, Option.bind_eq_bind, Option.bind_some]

theorem skipFull_result : (skipFull behind fuel s b).result = s.skipFull fuel b := by
  induction fuel generalizing s b with
  | zero => rfl
  | succ fuel ih =>
    rw [skipFull, Arena.skipFull, Traced.result_ite]
    simp only [Traced.result_bind, Traced.result_lift, Traced.result_ite, Traced.result_pure, extendFile_result, ih,
      Option.bind_eq_bind]

theorem writeByte_result {r : Arena × Nat} {c : UInt8} : (writeByte behind r c).result = Arena.writeByte r c := by
  simp only [writeByte, Arena.writeByte, Traced.result_bind, Traced.result_emit, Traced.result_ite,
    Traced.result_lift, Traced.result_pure, extendFile_result, Option.bind_eq_bind, Option.bind_some]

theorem freeBlock_result {c p : Nat} (hs : s.Linked) (hc : (s c).occupied = true) (htype : (s c).type = .subFile)
    (hparent : (s c).parentBlock = some p) : (freeBlock s c).result = some (s.splice c p) := by
  simp only [freeBlock, Traced.result_bind, Traced.result_emit, Traced.result_lift, Traced.result_pure, hparent,
    Option.bind_some, hs.freeBlock_subFile hc htype hparent]

theorem resetChildren_result (h : s.Opened fid b) :
    (resetChildren fuel s b).result = Arena.resetChildren fuel s b := by
  induction fuel generalizing s with
  | zero => rfl
  | succ fuel ih =>
    rw [resetChildren, Arena.resetChildren]
    cases hchild : (s b).childBlock with
    | none => rfl
    | some c =>
      obtain ⟨hc, htype, hparent, -⟩ := h.linked.child b c h.occupied hchild
      dsimp only
      rw [Traced.result_bind, (h.linked.bid c hc).2, freeBlock_result h.linked hc htype hparent,
        h.linked.freeBlock_subFile hc htype hparent]
      exact ih (h.splice hc htype hparent)

theorem resetFile_result (h : s.Opened fid b) : (resetFile s fid).result = s.resetFile fid := by
  rw [resetFile, Arena.resetFile, h.faddr]
  simp only [Traced.result_bind, Traced.result_lift, Traced.result_emit, Traced.result_pure, Option.bind_some,
    resetChildren_result h, Option.bind_eq_bind]

theorem tfsysWrite_result {file : FILE} {buffer : List UInt8} (hs : s.Linked) :
    (tfsysWrite behind s file buffer).result = s.tfsysWrite file buffer := by
  rw [tfsysWrite, Arena.tfsysWrite, Traced.result_bind, Traced.result_lift, Option.bind_eq_bind]
  cases hb : s.lookup file.id .file with
  | none => rfl
  | some b =>
    have hopened := Arena.Opened.of_lookup hs hb
    simp only [Option.bind_some, Traced.result_bind, Traced.result_ite, Traced.result_pure,
      resetFile_result hopened, Traced.result_lift, skipFull_result,
      Traced.result_foldlM (fun _ _ => writeByte_result), Option.bind_eq_bind]

end Logged

end Akos.Tmpfs
