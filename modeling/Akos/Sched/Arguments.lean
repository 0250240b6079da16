import Akos.Lib.Pushes
import Akos.Memory.Heap
import Akos.Utils.Strings

/-!
# The arguments of a process

`insert_argv_to_process_stack` takes the arguments apart at the blanks and writes them to the user stack of the new
process: the pieces, the array of pointers to them, the pointer to that array and the number of pieces.
-/

namespace Akos

open Pushes

/-- `' '` -/
abbrev blank : Byte := 0x20#8

/-- `int_aligned_len`, of a length with the terminator. -/
def intAlignedLen (len : Nat) : Nat := if len % 4 ≠ 0 then len + (4 - len % 4) else len

/-- The bytes of a word in memory. -/
def memoryBytes (v : BitVec 32) : List Byte := (List.range 4).map fun k => v.extractLsb' (8 * k) 8

/-- The body of the loop, on the stack and on the part of `argv` that is filled. -/
def insertArg (s : Stack 32 Byte × List (BitVec 32)) (arg : List Byte) : Stack 32 Byte × List (BitVec 32) :=
  let stack := (s.1.lower (intAlignedLen (arg.length + 1))).write (arg ++ [0#8])
  (stack, s.2 ++ [stack.top])

/-- `none` is a null pointer. -/
def insertArgvToProcessStack (args : Option (List Byte)) (esp : BitVec 32) : Stack 32 Byte :=
  let argCount := match args with
    | none => 0
    | some args => countSubstrings args blank
  let pieces := (List.range argCount).map (seperateAndTake (args.getD []) blank)
  let (stack, argv) := pieces.foldl insertArg (⟨esp, []⟩, [])
  let stack := (stack.lower ((argCount + 1) * 4)).write ((argv ++ [0#32]).flatMap memoryBytes)
  let stack := (stack.lower 4).write (memoryBytes stack.top)
  let stack := (stack.lower 4).write (memoryBytes (BitVec.ofNat 32 argCount))
  stack.lower 4

/-! ### What the program finds -/

/-- A string with its terminator is in memory. -/
structure StringAt (mem : ByteMemory) (p : BitVec 32) (str : List Byte) : Prop where
  terminated : 0#8 ∉ str
  bytes : ∀ k (hk : k < (str ++ [0#8]).length), mem (p + BitVec.ofNat 32 k) = (str ++ [0#8])[k]

section

variable (mem : ByteMemory) (esp : BitVec 32)

/-- `argc`, the first argument of a function that is entered with this stack pointer. -/
def argc : BitVec 32 := mem.loadWord (esp + 4#32)

def argv : BitVec 32 := mem.loadWord (esp + 8#32)

/-- `argv[i]` -/
def argvEntry (i : Nat) : BitVec 32 := mem.loadWord (argv mem esp + BitVec.ofNat 32 (4 * i))

/-- The program finds the pieces as its arguments, and they are the string cut at its blanks. -/
structure FindsArguments (args : List Byte) (pieces : List (List Byte)) : Prop where
  count : (argc mem esp).toNat = pieces.length
  strings : ∀ i (hi : i < pieces.length), StringAt mem (argvEntry mem esp i) pieces[i]
  null : argvEntry mem esp pieces.length = 0#32
  joined : [blank].intercalate pieces = args
  apart : ∀ i j (hi : i < pieces.length) (hj : j < pieces.length) a, i ≠ j →
    Within (argvEntry mem esp i) (pieces[i].length + 1) a → ¬ Within (argvEntry mem esp j) (pieces[j].length + 1) a
  apart_argv : ∀ i (hi : i < pieces.length) a, Within (argvEntry mem esp i) (pieces[i].length + 1) a →
    ¬ Within (argv mem esp) (4 * (pieces.length + 1)) a

/-- The arguments are found on the new stack, and only the page below its start was written to. -/
def ArgumentsArrive (args : List Byte) : Prop :=
  let stack := insertArgvToProcessStack (some args) esp
  (∃ pieces, FindsArguments (Overlay.put mem stack.writes) stack.top args pieces) ∧
    ∀ e ∈ stack.writes, Within (esp - 4096#32) 4096 e.1

end

/-- The room that the arguments take: the pieces, the entries of `argv` with the null pointer, `argv` and `argc`. -/
def argvSpace (pieces : List (List Byte)) : Nat :=
  (pieces.map fun p => intAlignedLen (p.length + 1)).sum + 4 * (pieces.length + 1) + 8

/-! ### The blocks on the stack -/

theorem le_intAlignedLen (len : Nat) : len ≤ intAlignedLen len := by
  rw [intAlignedLen]
  split <;> omega

theorem intAlignedLen_lt (len : Nat) : intAlignedLen len < len + 4 := by
  rw [intAlignedLen]
  split <;> omega

def argBlock (arg : List Byte) : Pushes.Block Byte :=
  ⟨intAlignedLen (arg.length + 1), arg ++ [0#8], by
    rw [List.length_append, List.length_singleton]
    exact le_intAlignedLen _⟩

def wordBlock (v : BitVec 32) : Pushes.Block Byte := ⟨4, memoryBytes v, Nat.le_refl 4⟩

theorem length_flatMap_memoryBytes (vs : List (BitVec 32)) : (vs.flatMap memoryBytes).length = vs.length * 4 := by
  induction vs with
  | nil => rfl
  | cons v vs ih =>
    rw [List.flatMap_cons, List.length_append, ih, List.length_cons]
    exact (Nat.add_comm 4 _).trans (Nat.succ_mul _ 4).symm

def argvBlock (argv : List (BitVec 32)) : Pushes.Block Byte :=
  ⟨(argv.length + 1) * 4, (argv ++ [0#32]).flatMap memoryBytes, by
    rw [length_flatMap_memoryBytes, List.length_append, List.length_singleton]⟩

variable {esp : BitVec 32} {pieces : List (List Byte)} {args str : List Byte} {mem : ByteMemory} {i : Nat}

@[simp] theorem room_argBlock (arg : List Byte) : (argBlock arg).room = intAlignedLen (arg.length + 1) := rfl

@[simp] theorem room_wordBlock (v : BitVec 32) : (wordBlock v).room = 4 := rfl

@[simp] theorem room_argvBlock (argv : List (BitVec 32)) : (argvBlock argv).room = (argv.length + 1) * 4 := rfl

/-- How deep the stack is behind the first pieces. -/
def argDepth (pieces : List (List Byte)) (n : Nat) : Nat := depth ((pieces.map argBlock).take n)

/-- Where the pieces are that are pushed from an address on. -/
def argAddresses (esp : BitVec 32) (pieces : List (List Byte)) : List (BitVec 32) :=
  (List.range pieces.length).map fun i => esp - BitVec.ofNat 32 (argDepth pieces (i + 1))

@[simp] theorem length_argAddresses (esp : BitVec 32) (pieces : List (List Byte)) :
    (argAddresses esp pieces).length = pieces.length := by simp [argAddresses]

theorem argDepth_length (pieces : List (List Byte)) : argDepth pieces pieces.length = depth (pieces.map argBlock) := by
  rw [argDepth, List.take_of_length_le (Nat.le_of_eq (List.length_map _))]

theorem argDepth_succ (hi : i < pieces.length) :
    argDepth pieces (i + 1) = argDepth pieces i + intAlignedLen (pieces[i].length + 1) := by
  have hi' : i < (pieces.map argBlock).length := by rwa [List.length_map]
  rw [argDepth, List.take_succ_eq_append_getElem hi', depth_append, depth_cons, depth_nil, Nat.add_zero,
    List.getElem_map]
  rfl

theorem argDepth_mono {j : Nat} (hle : i ≤ j) : argDepth pieces i ≤ argDepth pieces j := by
  have hsplit : (pieces.map argBlock).take j
      = (pieces.map argBlock).take i ++ ((pieces.map argBlock).take j).drop i := by
    rw [← Nat.min_eq_left hle, ← List.take_take, Nat.min_eq_left hle]
    exact (List.take_append_drop _ _).symm
  rw [argDepth, argDepth, hsplit, depth_append]
  exact Nat.le_add_right _ _

theorem argAddresses_concat (esp : BitVec 32) (pieces : List (List Byte)) (p : List Byte) :
    argAddresses esp (pieces ++ [p]) =
      argAddresses esp pieces ++ [esp - BitVec.ofNat 32 (depth (pieces.map argBlock) + (argBlock p).room)] := by
  rw [argAddresses, List.length_append, List.length_singleton, List.range_succ, List.map_append, argAddresses]
  congr 1
  · refine List.map_congr_left fun i hi => ?_
    rw [argDepth, argDepth, List.map_append, List.take_append_of_le_length]
    rw [List.length_map]
    exact List.mem_range.mp hi
  · have hlength : (pieces ++ [p]).length = pieces.length + 1 := List.length_append
    rw [List.map_singleton, ← hlength, argDepth_length, List.map_append, depth_append, List.map_singleton, depth_cons,
      depth_nil, Nat.add_zero]

/-- The loop pushes the pieces and keeps where they are. -/
theorem foldl_insertArg (esp : BitVec 32) (pieces : List (List Byte)) :
    pieces.foldl insertArg (⟨esp, []⟩, []) =
      ((Stack.mk esp []).pushAll (pieces.map argBlock), argAddresses esp pieces) := by
  induction pieces using List.reverseRecOn with
  | nil => rfl
  | append_singleton pieces p ih =>
    rw [List.foldl_concat, ih, List.map_append, List.map_singleton, Stack.pushAll_append, argAddresses_concat,
      ← (Stack.mk esp []).top_push_pushAll]
    rfl

def argvAddress (esp : BitVec 32) (pieces : List (List Byte)) : BitVec 32 :=
  esp - BitVec.ofNat 32 (depth (pieces.map argBlock) + (pieces.length + 1) * 4)

/-- What is pushed, with the addresses in it. -/
def argumentBlocks (esp : BitVec 32) (pieces : List (List Byte)) : List (Pushes.Block Byte) :=
  pieces.map argBlock ++ [argvBlock (argAddresses esp pieces), wordBlock (argvAddress esp pieces),
    wordBlock (BitVec.ofNat 32 pieces.length)]

/-- The pieces that are counted. -/
def argPieces (args : List Byte) : List (List Byte) := (args.splitOn blank).take (countSubstrings args blank)

theorem length_argPieces (args : List Byte) : (argPieces args).length = countSubstrings args blank := by
  have hcount := countSubstrings_splitOn args blank
  rw [argPieces, List.length_take, ← hcount, Nat.min_eq_left (Nat.le_add_right _ _)]

theorem insertArgvToProcessStack_eq (args : List Byte) (esp : BitVec 32) :
    insertArgvToProcessStack (some args) esp =
      ((Stack.mk esp []).pushAll (argumentBlocks esp (argPieces args))).lower 4 := by
  have hcount := countSubstrings_splitOn args blank
  have hpieces : (List.range (countSubstrings args blank)).map (seperateAndTake args blank) = argPieces args :=
    map_seperateAndTake (hcount ▸ Nat.le_add_right _ _)
  rw [insertArgvToProcessStack]
  dsimp only [Option.getD_some]
  have hpush (s : Stack 32 Byte) : (s.lower ((countSubstrings args blank + 1) * 4)).write
      ((argAddresses esp (argPieces args) ++ [0#32]).flatMap memoryBytes) =
        s.push (argvBlock (argAddresses esp (argPieces args))) := by
    rw [Stack.push, room_argvBlock, length_argAddresses, length_argPieces]
    rfl
  have htop : (((Stack.mk esp []).pushAll ((argPieces args).map argBlock)).push
      (argvBlock (argAddresses esp (argPieces args)))).top = argvAddress esp (argPieces args) := by
    rw [Stack.top_push_pushAll, room_argvBlock, length_argAddresses, argvAddress]
  rw [hpieces, foldl_insertArg]
  dsimp only
  rw [hpush, htop, ← length_argPieces, argumentBlocks, Stack.pushAll_append]
  rfl

theorem depth_map_argBlock (pieces : List (List Byte)) :
    depth (pieces.map argBlock) = (pieces.map fun p => intAlignedLen (p.length + 1)).sum := by
  rw [depth, List.map_map]
  rfl

theorem depth_argumentBlocks (esp : BitVec 32) (pieces : List (List Byte)) :
    depth (argumentBlocks esp pieces) = argvSpace pieces := by
  rw [argumentBlocks, depth_append, depth_map_argBlock, argvSpace]
  simp only [depth_cons, depth_nil, room_argvBlock, room_wordBlock, length_argAddresses]
  omega

/-- The writes stay in the page when the arguments fit. -/
theorem within_page_iff (esp : BitVec 32) (pieces : List (List Byte)) :
    (∀ e ∈ ((Stack.mk esp []).pushAll (argumentBlocks esp pieces)).writes, Within (esp - 4096#32) 4096 e.1) ↔
      argvSpace pieces ≤ 4096 := by
  have hwithin (a : BitVec 32) : Within (esp - 4096#32) 4096 a ↔ 0 < (esp - a).toNat ∧ (esp - a).toNat ≤ 4096 := by
    simpa using @within_iff 32 esp a 4096 0 (by decide)
  rw [← depth_argumentBlocks esp]
  constructor
  · refine fun h => @depth_le _ _ _ _ 4096 4 (fun b hb => ?_) (by decide) fun e he => (hwithin e.1).mp (h e he)
    obtain hb | hb := List.mem_append.mp hb
    · obtain ⟨p, -, rfl⟩ := List.mem_map.mp hb
      have hlength : (argBlock p).bytes.length = p.length + 1 := List.length_append
      rw [hlength]
      exact ⟨Nat.succ_pos _, intAlignedLen_lt _⟩
    · have hargv : (argvBlock (argAddresses esp pieces)).bytes.length = (pieces.length + 1) * 4 := by
        rw [argvBlock, length_flatMap_memoryBytes, List.length_append, length_argAddresses, List.length_singleton]
      obtain rfl | hb := List.mem_cons.mp hb
      · rw [hargv, room_argvBlock, length_argAddresses]
        omega
      · obtain rfl | hb := List.mem_cons.mp hb
        · exact ⟨Nat.succ_pos 3, show 4 < 4 + 4 by decide⟩
        · obtain rfl := List.mem_singleton.mp hb
          exact ⟨Nat.succ_pos 3, show 4 < 4 + 4 by decide⟩
  · refine fun hle e he => (hwithin e.1).mpr ?_
    obtain h | h := @of_mem_pushAll 32 Byte esp _ ⟨esp, []⟩ 0 e (sub_zero esp).symm he (by omega)
    · cases h
    · omega

/-! ### What is read back -/

theorem loadWord_of_bytes {p v : BitVec 32}
    (h : ∀ k (hk : k < (memoryBytes v).length), mem (p + BitVec.ofNat 32 k) = (memoryBytes v)[k]) :
    mem.loadWord p = v := by
  have h0 := h 0 (Nat.succ_pos 3)
  rw [BitVec.add_zero] at h0
  rw [ByteMemory.loadWord, h0, h 1 (show 1 < 4 by decide), h 2 (show 2 < 4 by decide), h 3 (show 3 < 4 by decide)]
  simp only [memoryBytes, List.getElem_map, List.getElem_range]
  rw [BitVec.extractLsb'_append_extractLsb'_eq_extractLsb' (by rfl),
    BitVec.extractLsb'_append_extractLsb'_eq_extractLsb' (by rfl),
    BitVec.extractLsb'_append_extractLsb'_eq_extractLsb' (by rfl)]
  exact BitVec.extractLsb'_eq_self

/-- A string in memory ends at its first zero. -/
theorem StringAt.length_le {p : BitVec 32} {str' : List Byte} (h : StringAt mem p str) (h' : StringAt mem p str') :
    str.length ≤ str'.length := Nat.le_of_not_lt fun hlt => by
  have hend := h'.bytes str'.length (by rw [List.length_append]; exact Nat.lt_succ_self _)
  have hin := h.bytes str'.length (by rw [List.length_append]; exact Nat.lt_succ_of_lt hlt)
  rw [List.getElem_append_left hlt] at hin
  rw [List.getElem_concat_length rfl, hin] at hend
  exact h.terminated (hend ▸ List.getElem_mem hlt)

theorem StringAt.unique {p : BitVec 32} {str' : List Byte} (h : StringAt mem p str) (h' : StringAt mem p str') :
    str = str' := by
  refine List.ext_getElem (Nat.le_antisymm (h.length_le h') (h'.length_le h)) fun k hk hk' => ?_
  have hbyte := h.bytes k (by rw [List.length_append]; exact Nat.lt_succ_of_lt hk)
  rw [h'.bytes k (by rw [List.length_append]; exact Nat.lt_succ_of_lt hk'), List.getElem_append_left hk,
    List.getElem_append_left hk'] at hbyte
  exact hbyte.symm

/-- The memory behind the pushes, when they are all in the address space. -/
def pushedArguments (mem : ByteMemory) (esp : BitVec 32) (pieces : List (List Byte)) : ByteMemory :=
  Overlay.put mem ((Stack.mk esp []).pushAll (argumentBlocks esp pieces)).writes

/-- A block of the arguments is read back. -/
theorem pushedArguments_apply {bs bs' : List (Pushes.Block Byte)} {b : Pushes.Block Byte} {k : Nat}
    (hblocks : argumentBlocks esp pieces = bs ++ b :: bs') (hspace : argvSpace pieces < 2 ^ 32)
    (hk : k < b.bytes.length) :
    pushedArguments mem esp pieces (esp - BitVec.ofNat 32 (depth bs + b.room) + BitVec.ofNat 32 k) = b.bytes[k] := by
  rw [← depth_argumentBlocks esp, hblocks, depth_append, depth_cons] at hspace
  rw [pushedArguments, hblocks]
  exact put_pushAll hk hspace

theorem stringAt_pushedArguments (hspace : argvSpace pieces < 2 ^ 32) (hterminated : ∀ p ∈ pieces, 0#8 ∉ p)
    (hi : i < pieces.length) :
    StringAt (pushedArguments mem esp pieces) (esp - BitVec.ofNat 32 (argDepth pieces (i + 1))) pieces[i] := by
  refine ⟨hterminated _ (List.getElem_mem hi), fun k hk => ?_⟩
  have hi' : i < (pieces.map argBlock).length := by rwa [List.length_map]
  have hblock : (pieces.map argBlock)[i] = argBlock pieces[i] := List.getElem_map _
  have hblocks : argumentBlocks esp pieces = (pieces.map argBlock).take i ++ argBlock pieces[i] ::
      ((pieces.map argBlock).drop (i + 1) ++ [argvBlock (argAddresses esp pieces),
        wordBlock (argvAddress esp pieces), wordBlock (BitVec.ofNat 32 pieces.length)]) := by
    rw [argumentBlocks, ← List.cons_append, ← List.append_assoc, ← hblock, ← List.drop_eq_getElem_cons hi',
      List.take_append_drop]
  rw [argDepth_succ hi]
  exact pushedArguments_apply hblocks hspace hk

theorem getElem?_flatMap_memoryBytes {vs : List (BitVec 32)} {k : Nat} (hi : i < vs.length) (hk : k < 4) :
    (vs.flatMap memoryBytes)[4 * i + k]? = (memoryBytes vs[i])[k]? := by
  induction vs generalizing i with
  | nil => exact absurd hi (Nat.not_lt_zero i)
  | cons v vs ih =>
    rw [List.flatMap_cons]
    cases i with
    | zero =>
      have hfirst : 4 * 0 + k < (memoryBytes v).length := show 4 * 0 + k < 4 by omega
      rw [List.getElem?_append_left hfirst, Nat.mul_zero, Nat.zero_add, List.getElem_cons_zero]
    | succ i =>
      have hrest : 4 * (i + 1) + k - (memoryBytes v).length = 4 * i + k :=
        show 4 * (i + 1) + k - 4 = 4 * i + k by omega
      rw [List.getElem?_append_right (show 4 ≤ 4 * (i + 1) + k by omega), hrest, List.getElem_cons_succ]
      exact ih (Nat.lt_of_succ_lt_succ hi)

theorem loadWord_argvAddress (hspace : argvSpace pieces < 2 ^ 32)
    (hi : i < (argAddresses esp pieces ++ [0#32]).length) :
    (pushedArguments mem esp pieces).loadWord (argvAddress esp pieces + BitVec.ofNat 32 (4 * i)) =
      (argAddresses esp pieces ++ [0#32])[i] := by
  refine loadWord_of_bytes fun k hk => ?_
  have hwords := getElem?_flatMap_memoryBytes hi hk
  have hlt : 4 * i + k < ((argAddresses esp pieces ++ [0#32]).flatMap memoryBytes).length := by
    rw [length_flatMap_memoryBytes]
    have hk' : k < 4 := hk
    omega
  rw [List.getElem?_eq_getElem hlt, List.getElem?_eq_getElem hk] at hwords
  have happly := @pushedArguments_apply esp pieces mem _ _ (argvBlock (argAddresses esp pieces)) _ rfl hspace hlt
  rw [room_argvBlock, length_argAddresses, ← argvAddress, BitVec.ofNat_add, ← BitVec.add_assoc] at happly
  exact happly.trans (Option.some.inj hwords)

/-- Where a word is that is pushed behind `argv`. -/
theorem loadWord_wordBlock {bs bs' : List (Pushes.Block Byte)} {v : BitVec 32}
    (hblocks : argumentBlocks esp pieces = bs ++ wordBlock v :: bs') (hspace : argvSpace pieces < 2 ^ 32) :
    (pushedArguments mem esp pieces).loadWord (esp - BitVec.ofNat 32 (depth bs + 4)) = v :=
  loadWord_of_bytes fun _ hk => pushedArguments_apply hblocks hspace hk

theorem argc_pushedArguments (hspace : argvSpace pieces < 2 ^ 32) :
    argc (pushedArguments mem esp pieces) (esp - BitVec.ofNat 32 (argvSpace pieces) - 4#32) =
      BitVec.ofNat 32 pieces.length := by
  have hblocks : argumentBlocks esp pieces =
      (pieces.map argBlock ++ [argvBlock (argAddresses esp pieces), wordBlock (argvAddress esp pieces)]) ++
        [wordBlock (BitVec.ofNat 32 pieces.length)] := by
    rw [List.append_assoc]
    rfl
  have hdepth := depth_argumentBlocks esp pieces
  rw [hblocks, depth_append, depth_cons, depth_nil] at hdepth
  rw [argc, sub_add_cancel, ← hdepth]
  exact loadWord_wordBlock hblocks hspace

theorem argv_pushedArguments (hspace : argvSpace pieces < 2 ^ 32) :
    argv (pushedArguments mem esp pieces) (esp - BitVec.ofNat 32 (argvSpace pieces) - 4#32) =
      argvAddress esp pieces := by
  have hblocks : argumentBlocks esp pieces =
      (pieces.map argBlock ++ [argvBlock (argAddresses esp pieces)]) ++ wordBlock (argvAddress esp pieces) ::
        [wordBlock (BitVec.ofNat 32 pieces.length)] := by
    rw [List.append_assoc]
    rfl
  have hdepth := depth_argumentBlocks esp pieces
  rw [hblocks, depth_append, depth_cons, depth_cons, depth_nil] at hdepth
  have haddress : esp - BitVec.ofNat 32 (argvSpace pieces) - 4#32 + 8#32 =
      esp - BitVec.ofNat 32 (depth (pieces.map argBlock ++ [argvBlock (argAddresses esp pieces)]) + 4) := by
    rw [← hdepth, room_wordBlock, room_wordBlock]
    generalize depth (pieces.map argBlock ++ [argvBlock (argAddresses esp pieces)]) = n
    bv_omega
  rw [argv, haddress]
  exact loadWord_wordBlock hblocks hspace

/-- A string with its terminator is in the room of its piece. -/
theorem within_argBlock {a : BitVec 32} (hi : i < pieces.length)
    (h : Within (esp - BitVec.ofNat 32 (argDepth pieces (i + 1))) (pieces[i].length + 1) a) :
    Within (esp - BitVec.ofNat 32 (argDepth pieces i + intAlignedLen (pieces[i].length + 1)))
      (intAlignedLen (pieces[i].length + 1)) a := by
  rw [← argDepth_succ hi]
  exact Nat.lt_of_lt_of_le h (le_intAlignedLen _)

theorem not_within_of_lt {j : Nat} {a : BitVec 32} (hspace : argvSpace pieces < 2 ^ 32) (hij : i < j)
    (hj : j < pieces.length)
    (h : Within (esp - BitVec.ofNat 32 (argDepth pieces (i + 1))) (pieces[i].length + 1) a) :
    ¬ Within (esp - BitVec.ofNat 32 (argDepth pieces (j + 1))) (pieces[j].length + 1) a := fun h' => by
  have hi := hij.trans hj
  have hle : argDepth pieces i + intAlignedLen (pieces[i].length + 1) ≤ argDepth pieces j := by
    rw [← argDepth_succ hi]
    exact argDepth_mono hij
  have hlt : argDepth pieces j + intAlignedLen (pieces[j].length + 1) < 2 ^ 32 := by
    have hmono := @argDepth_mono pieces (j + 1) pieces.length hj
    rw [argDepth_length, depth_map_argBlock] at hmono
    rw [argvSpace] at hspace
    rw [← argDepth_succ hj]
    omega
  exact not_within_of_le (within_argBlock hi h) hle hlt (within_argBlock hj h')

theorem argvEntry_pushedArguments (hspace : argvSpace pieces < 2 ^ 32) (hi : i < pieces.length) :
    argvEntry (pushedArguments mem esp pieces) (esp - BitVec.ofNat 32 (argvSpace pieces) - 4#32) i =
      esp - BitVec.ofNat 32 (argDepth pieces (i + 1)) := by
  have hlength : i < (argAddresses esp pieces).length := by rwa [length_argAddresses]
  have hi' : i < (argAddresses esp pieces ++ [0#32]).length := List.length_append ▸ Nat.lt_add_right 1 hlength
  rw [argvEntry, argv_pushedArguments hspace, loadWord_argvAddress hspace hi', List.getElem_append_left hlength]
  simp only [argAddresses, List.getElem_map, List.getElem_range]

theorem findsArguments_pushedArguments (hspace : argvSpace pieces ≤ 4096) (hterminated : ∀ p ∈ pieces, 0#8 ∉ p) :
    FindsArguments (pushedArguments mem esp pieces) (esp - BitVec.ofNat 32 (argvSpace pieces) - 4#32)
      ([blank].intercalate pieces) pieces := by
  have hlt : argvSpace pieces < 2 ^ 32 := by omega
  have hlength : 4 * (pieces.length + 1) ≤ argvSpace pieces := by
    rw [argvSpace]
    omega
  refine ⟨?_, fun i hi => ?_, ?_, rfl, fun i j hi hj a hne h h' => ?_, fun i hi a h h' => ?_⟩
  · rw [argc_pushedArguments hlt, BitVec.toNat_ofNat, Nat.mod_eq_of_lt (by omega)]
  · rw [argvEntry_pushedArguments hlt hi]
    exact stringAt_pushedArguments hlt hterminated hi
  · have hlast := (@List.length_append _ (argAddresses esp pieces) [0#32])
    rw [length_argAddresses, List.length_singleton] at hlast
    rw [argvEntry, argv_pushedArguments hlt, loadWord_argvAddress hlt (hlast ▸ Nat.lt_succ_self _)]
    exact List.getElem_concat_length (length_argAddresses esp pieces).symm _
  · rw [argvEntry_pushedArguments hlt hi] at h
    rw [argvEntry_pushedArguments hlt hj] at h'
    obtain hij | hji := Nat.lt_or_gt_of_ne hne
    · exact not_within_of_lt hlt hij hj h h'
    · exact not_within_of_lt hlt hji hi h' h
  · rw [argvEntry_pushedArguments hlt hi] at h
    rw [argv_pushedArguments hlt, argvAddress, Nat.mul_comm] at h'
    refine not_within_of_le (within_argBlock hi h) ?_ ?_ h'
    · rw [← argDepth_succ hi, ← argDepth_length]
      exact argDepth_mono hi
    · rw [depth_map_argBlock]
      rw [argvSpace] at hlt
      omega

/-- What the program finds is determined by the memory. -/
theorem FindsArguments.unique {esp' : BitVec 32} {args' : List Byte} {pieces' : List (List Byte)}
    (h : FindsArguments mem esp' args pieces) (h' : FindsArguments mem esp' args' pieces') : pieces = pieces' := by
  refine List.ext_getElem (h.count.symm.trans h'.count) fun i hi hi' => ?_
  exact (h.strings i hi).unique (h'.strings i hi')

theorem argPieces_of_head (hhead : args.head? ≠ some blank) : argPieces args = args.splitOn blank := by
  have hcount := countSubstrings_splitOn args blank
  rw [if_neg hhead, Nat.add_zero] at hcount
  rw [argPieces, hcount, List.take_length]

/-- With a blank in front the last piece is left out. -/
theorem intercalate_argPieces_iff (args : List Byte) :
    [blank].intercalate (argPieces args) = args ↔ args.head? ≠ some blank := by
  constructor
  · intro hjoined hhead
    have hcount := countSubstrings_splitOn args blank
    rw [if_pos hhead, ← length_argPieces] at hcount
    have hne : argPieces args ≠ [] := List.ne_nil_of_length_pos (by
      rw [length_argPieces, countSubstrings]
      omega)
    have hsplit := List.splitOn_intercalate blank
      (fun p hp hblank => (mem_of_mem_splitOn (List.mem_of_mem_take hp) hblank).2 rfl) hne
    rw [← argPieces, hjoined] at hsplit
    rw [hsplit] at hcount
    omega
  · intro hhead
    rw [argPieces_of_head hhead]
    exact List.intercalate_splitOn blank

theorem terminated_argPieces (hargs : 0#8 ∉ args) : ∀ p ∈ argPieces args, 0#8 ∉ p := fun _ hp hzero =>
  hargs (mem_of_mem_splitOn (List.mem_of_mem_take hp) hzero).1

/-- What a program is given is the pieces that were counted. -/
theorem argumentsArrive_iff_argPieces (hargs : 0#8 ∉ args) :
    ArgumentsArrive mem esp args ↔ [blank].intercalate (argPieces args) = args ∧ argvSpace (argPieces args) ≤ 4096 := by
  have hfinds (hspace : argvSpace (argPieces args) ≤ 4096) :=
    @findsArguments_pushedArguments esp _ mem hspace (terminated_argPieces hargs)
  have htop : ((Stack.mk esp []).pushAll (argumentBlocks esp (argPieces args))).top =
      esp - BitVec.ofNat 32 (argvSpace (argPieces args)) := by
    rw [Stack.top_pushAll, depth_argumentBlocks]
  rw [ArgumentsArrive, insertArgvToProcessStack_eq, Stack.lower]
  dsimp only
  rw [htop, within_page_iff, ← pushedArguments]
  constructor
  · rintro ⟨⟨pieces, h⟩, hspace⟩
    obtain rfl := h.unique (hfinds hspace)
    exact ⟨h.joined, hspace⟩
  · rintro ⟨hjoined, hspace⟩
    have h := hfinds hspace
    rw [hjoined] at h
    exact ⟨⟨_, h⟩, hspace⟩

/-- The arguments arrive when they do not begin with a blank and the pieces fit in the page with the pointers to
them. -/
theorem argumentsArrive_iff (mem : ByteMemory) (esp : BitVec 32) (hargs : 0#8 ∉ args) :
    ArgumentsArrive mem esp args ↔ args.head? ≠ some blank ∧ argvSpace (args.splitOn blank) ≤ 4096 := by
  rw [argumentsArrive_iff_argPieces hargs, intercalate_argPieces_iff]
  refine and_congr_right fun hhead => ?_
  rw [argPieces_of_head hhead]

theorem argumentsArrive_iff_twoPieces : ArgumentsArrive (fun _ => 0#8) 0x801000#32 [0x61#8, 0x20#8, 0x62#8] :=
  (argumentsArrive_iff (fun _ => 0#8) 0x801000#32 (by decide)).mpr ⟨by decide, by decide⟩

/-- With a blank in front of it the one argument is lost. -/
theorem not_argumentsArrive : ¬ ∀ (mem : ByteMemory) (esp : BitVec 32) (args : List Byte), 0#8 ∉ args →
    ArgumentsArrive mem esp args := fun h => by
  have harrive := h (fun _ => 0#8) 0x801000#32 [0x20#8, 0x61#8] (by decide)
  have hjoined := ((argumentsArrive_iff_argPieces (by decide)).mp harrive).1
  exact (intercalate_argPieces_iff _).mp hjoined rfl

end Akos
