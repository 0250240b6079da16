import Akos.Fat12.Volume
import Akos.Lib.Linked
import Akos.Lib.Transition

/-!
# File descriptors

`process.c`: the descriptors of a process are a linked list of blocks of the kernel heap. Opening a file appends
one with a number above all others, and closing one takes it out. Over a run the list is a map from numbers to
files as long as nobody closes the first of several descriptors or closes one when there is none, the numbers
last and so does the kernel heap.
-/

namespace Akos

/-- `FILE_DESC` without its link -/
structure FileDesc where
  file : Fat12.FILE
  fd : BitVec 32

/-- The descriptors in memory and the `file_descs` of a process. A function that follows a null pointer gives
nothing. -/
structure FdTable where
  nodes : Linked.Store FileDesc
  fileDescs : BitVec 32

namespace FdTable

/-- A process that has opened no file. -/
def empty : FdTable := ⟨fun _ => none, 0#32⟩

/-- The address of the descriptor, whose first field is the file, or 0. -/
def getFileByFd (t : FdTable) (fd : BitVec 32) : Option (BitVec 32) :=
  Linked.findFrom t.nodes (fun d => d.fd = fd) Linked.maxSteps t.fileDescs

/-- What the loop keeps: the number of the new descriptor and the last one seen. -/
def numberAbove (acc : BitVec 32 × BitVec 32) (e : BitVec 32 × FileDesc) : BitVec 32 × BitVec 32 :=
  (if acc.1 ≤ e.2.fd then e.2.fd + 1#32 else acc.1, e.1)

/-- `append_fd_to_process`, with the block of `kcalloc`, which clears it at once. -/
def appendFdToProcess (t : FdTable) (container : BitVec 32) (f : Fat12.FILE) : Option (BitVec 32 × FdTable) :=
  if container = 0#32 then none
  else
    let nodes := Linked.store t.nodes container ⟨⟨f, 1#32⟩, 0#32⟩
    if t.fileDescs = 0#32 then some (1#32, ⟨nodes, container⟩)
    else do
      let acc ← Linked.foldFrom nodes numberAbove Linked.maxSteps (1#32, 0#32) t.fileDescs
      let nodes := Linked.store nodes container ⟨⟨f, acc.1⟩, 0#32⟩
      let nodes ← Linked.setNext nodes acc.2 container
      some (acc.1, { t with nodes })

/-- `close_fd`. What `volCloseFile` does to the file is lost with the block. -/
def closeFd (t : FdTable) (fd : BitVec 32) : Option FdTable := do
  let tmp ← Linked.load t.nodes t.fileDescs
  if tmp.next = 0#32 then
    if tmp.value.fd = fd then some ⟨Linked.free t.nodes t.fileDescs, 0#32⟩ else some t
  else
    let prev ← Linked.findBefore t.nodes (fun d => d.fd = fd) Linked.maxSteps t.fileDescs
    if prev = 0#32 then some t
    else
      let node ← Linked.load t.nodes prev
      let closed ← Linked.load t.nodes node.next
      let nodes ← Linked.setNext (Linked.free t.nodes node.next) prev closed.next
      some { t with nodes }

end FdTable

/-! ### The map it stands for -/

/-- A file was opened under a number, or a number was closed. -/
inductive FdEvent
  | append (container : BitVec 32) (f : Fat12.FILE) (fd : BitVec 32)
  | close (fd : BitVec 32)

/-- The open files by their numbers. -/
abbrev FdMap := BitVec 32 → Option Fat12.FILE

/-- A number that was not in use gets the file, or loses it. -/
def FdMap.Step (m : FdMap) : FdEvent → FdMap → Prop
  | .append _ f fd, m' => 0 < fd.toNat ∧ m fd = none ∧ m' = Function.update m fd (some f)
  | .close fd, m' => m' = Function.update m fd none

namespace FdTable

variable {t t' : FdTable} {m : FdMap} {fd container : BitVec 32} {f : Fat12.FILE}

/-- The calls on a process. The kernel heap gives out no block that is in use. -/
def Called (t : FdTable) : FdEvent → FdTable → Prop
  | .append container f fd, t' => t.nodes container = none ∧ t.appendFdToProcess container f = some (fd, t')
  | .close fd, t' => t.closeFd fd = some t'

/-- The number that was given out last is not the largest there is, and the kernel heap has a block. -/
def CanAppend (t : FdTable) (container : BitVec 32) : Prop :=
  container ≠ 0#32 ∧ t.getFileByFd 0xFFFFFFFF#32 = some 0#32

/-- There is a descriptor, and this is not the number of the first of several. -/
def CanClose (t : FdTable) (fd : BitVec 32) : Prop :=
  ∃ first, Linked.load t.nodes t.fileDescs = some first ∧ (first.next = 0#32 ∨ first.value.fd ≠ fd)

def Meets (t : FdTable) : FdEvent → Prop
  | .append container _ _ => t.CanAppend container
  | .close fd => t.CanClose fd

def Step (t : FdTable) (e : FdEvent) (t' : FdTable) : Prop := t.Meets e ∧ t.Called e t'

/-- The file that `get_file_by_fd` gives, if it gives one. -/
def Finds (t : FdTable) (fd : BitVec 32) : Option Fat12.FILE → Prop
  | none => t.getFileByFd fd = some 0#32
  | some f => ∃ p node, t.getFileByFd fd = some p ∧ Linked.load t.nodes p = some node ∧ node.value.file = f

/-- The map of a list of descriptors. -/
def fileUnder (l : List (BitVec 32 × FileDesc)) (fd : BitVec 32) : Option Fat12.FILE :=
  (l.find? fun e => e.2.fd = fd).map fun e => e.2.file

/-- The descriptors are a list whose numbers are positive and distinct. -/
structure Represents (t : FdTable) (l : List (BitVec 32 × FileDesc)) : Prop where
  chain : Linked.Chain t.nodes t.fileDescs l
  distinct : (l.map fun e => e.2.fd).Nodup
  pos : ∀ e ∈ l, 0 < e.2.fd.toNat

variable {l l₁ l₂ : List (BitVec 32 × FileDesc)} {e : BitVec 32 × FileDesc}

/-! ### The list and its map -/

theorem fileUnder_eq_none : fileUnder l fd = none ↔ ∀ e ∈ l, e.2.fd ≠ fd := by
  simp [fileUnder]

theorem fileUnder_concat (hnew : ∀ e ∈ l, e.2.fd ≠ fd) :
    fileUnder (l ++ [(container, ⟨f, fd⟩)]) = Function.update (fileUnder l) fd (some f) := by
  funext n
  by_cases hn : n = fd
  · subst hn
    have hnone : l.find? (fun e => e.2.fd = n) = none := List.find?_eq_none.mpr fun e he => by simpa using hnew e he
    simp [fileUnder, List.find?_append, hnone]
  · rw [Function.update_of_ne hn]
    simp [fileUnder, List.find?_append, Ne.symm hn]

theorem fileUnder_remove (hdistinct : ((l₁ ++ e :: l₂).map fun e => e.2.fd).Nodup) :
    fileUnder (l₁ ++ l₂) = Function.update (fileUnder (l₁ ++ e :: l₂)) e.2.fd none := by
  funext n
  by_cases hn : n = e.2.fd
  · subst hn
    rw [Function.update_self, fileUnder_eq_none]
    intro e' he' heq
    have hperm : (l₁ ++ e :: l₂).Perm (e :: (l₁ ++ l₂)) := List.perm_middle
    exact (List.nodup_cons.mp ((hperm.map fun e => e.2.fd).nodup_iff.mp hdistinct)).1
      (List.mem_map.mpr ⟨e', he', heq⟩)
  · rw [Function.update_of_ne hn]
    simp [fileUnder, List.find?_append, Ne.symm hn]

namespace Represents

theorem getFileByFd_eq (h : t.Represents l) (fd : BitVec 32) :
    t.getFileByFd fd = some (Linked.Chain.found (fun d => d.fd = fd) l) :=
  h.chain.findFrom_eq _ h.chain.length_lt

theorem finds (h : t.Represents l) (fd : BitVec 32) : t.Finds fd (fileUnder l fd) := by
  have hget := h.getFileByFd_eq fd
  unfold Linked.Chain.found at hget
  unfold fileUnder
  cases hfind : l.find? fun e => e.2.fd = fd with
  | none =>
    rw [hfind] at hget
    exact hget
  | some e =>
    rw [hfind] at hget
    obtain ⟨q, hload⟩ := h.chain.load_of_mem (List.mem_of_find?_eq_some hfind)
    exact ⟨e.1, _, hget, hload, rfl⟩

theorem not_mem_iff (h : t.Represents l) (fd : BitVec 32) :
    t.getFileByFd fd = some 0#32 ↔ ∀ e ∈ l, e.2.fd ≠ fd := by
  rw [h.getFileByFd_eq, Linked.Chain.found, Option.some.injEq]
  constructor
  · intro hzero e he heq
    cases hfind : l.find? fun e => e.2.fd = fd with
    | none => simpa [heq] using List.find?_eq_none.mp hfind e he
    | some e' =>
      rw [hfind] at hzero
      exact h.chain.ne_zero (List.mem_map_of_mem (List.mem_of_find?_eq_some hfind)) hzero
  · intro hnone
    rw [List.find?_eq_none.mpr fun e he => by simpa using hnone e he]
    rfl

end Represents

/-! ### The number of a new descriptor -/

/-- What the loop does to the number alone. -/
def above (n : BitVec 32) (e : BitVec 32 × FileDesc) : BitVec 32 := if n ≤ e.2.fd then e.2.fd + 1#32 else n

theorem foldl_numberAbove (acc : BitVec 32 × BitVec 32) :
    (l ++ [e]).foldl numberAbove acc = ((l ++ [e]).foldl above acc.1, e.1) := by
  have hfst : (l ++ [e]).foldl above acc.1 = ((l ++ [e]).foldl numberAbove acc).1 :=
    List.foldl_hom Prod.fst fun _ _ => rfl
  rw [hfst, List.foldl_append]
  rfl

theorem lt_foldl_above (hmax : ∀ e ∈ l, e.2.fd ≠ 0xFFFFFFFF#32) :
    0 < (l.foldl above 1#32).toNat ∧ ∀ e ∈ l, e.2.fd.toNat < (l.foldl above 1#32).toNat := by
  have hf : ∀ n e, above n e = if ((n.toNat : Nat) : Int) ≤ (e.2.fd.toNat : Nat) then e.2.fd + 1#32 else n := by
    intro n e
    simp only [above, BitVec.le_def, Int.ofNat_le]
  have hnext : ∀ e ∈ l, ((e.2.fd.toNat : Nat) : Int) < ((e.2.fd + 1#32).toNat : Nat) := by
    intro e he
    have hne : e.2.fd.toNat ≠ 0xFFFFFFFF := fun heq => hmax e he (BitVec.eq_of_toNat_eq heq)
    rw [BitVec.toNat_add, show (1#32).toNat = 1 from rfl]
    omega
  obtain ⟨hone, hall⟩ := Linked.lt_foldl_above (fun n : BitVec 32 => (n.toNat : Int))
    (fun e : BitVec 32 × FileDesc => e.2.fd) (· + 1#32) hf hnext 1#32
  rw [show (1#32).toNat = 1 from rfl] at hone
  exact ⟨by omega, fun e he => Int.ofNat_lt.mp (hall e he)⟩

/-! ### What the calls do to the list -/

/-- Descriptors with other numbers are found as before. -/
theorem update_none (hnone : ∀ e ∈ l, e.2.fd ≠ fd) : fileUnder l = Function.update (fileUnder l) fd none := by
  rw [← fileUnder_eq_none.mpr hnone, Function.update_eq_self]

namespace Represents

theorem not_mem_addresses (h : t.Represents l) (hnew : t.nodes container = none) :
    container ∉ Linked.addresses l := by
  intro hmem
  obtain ⟨e, he, rfl⟩ := List.mem_map.mp hmem
  obtain ⟨q, hload⟩ := h.chain.load_of_mem he
  rw [Linked.load_of_ne (h.chain.ne_zero hmem), hnew] at hload
  cases hload

/-- With the chain of the longer list, the rest follows from the number. -/
theorem concat (h : t.Represents l) {t' : FdTable}
    (hchain : Linked.Chain t'.nodes t'.fileDescs (l ++ [(container, ⟨f, fd⟩)])) (hpos : 0 < fd.toNat)
    (hfresh : ∀ e ∈ l, e.2.fd ≠ fd) : t'.Represents (l ++ [(container, ⟨f, fd⟩)]) where
  chain := hchain
  distinct := by
    rw [List.map_append, List.nodup_append]
    refine ⟨h.distinct, List.nodup_singleton _, fun n hn m hm => ?_⟩
    obtain ⟨e, he, rfl⟩ := List.mem_map.mp hn
    obtain rfl := List.mem_singleton.mp hm
    exact hfresh e he
  pos e he := by
    obtain he | he := List.mem_append.mp he
    · exact h.pos e he
    · obtain rfl := List.mem_singleton.mp he
      exact hpos

theorem append (h : t.Represents l) (hcan : t.CanAppend container) (hnew : t.nodes container = none)
    (f : Fat12.FILE) : ∃ fd t', t.appendFdToProcess container f = some (fd, t') ∧ 0 < fd.toNat ∧
      (∀ e ∈ l, e.2.fd ≠ fd) ∧ t'.Represents (l ++ [(container, ⟨f, fd⟩)]) := by
  have hout := h.not_mem_addresses hnew
  rw [appendFdToProcess, if_neg hcan.1]
  dsimp only
  rcases List.eq_nil_or_concat l with rfl | ⟨l, ⟨a, d⟩, rfl⟩
  · rw [if_pos (h.chain.eq_zero_iff.mpr rfl)]
    exact ⟨1#32, _, rfl, Nat.one_pos, fun e he => absurd he List.not_mem_nil,
      h.concat (.cons hcan.1 (Function.update_self _ _ _) .nil) Nat.one_pos fun e he => absurd he List.not_mem_nil⟩
  · rw [List.concat_eq_append] at h hout ⊢
    have hmax := (h.not_mem_iff _).mp hcan.2
    obtain ⟨hpos, habove⟩ := lt_foldl_above hmax
    have hfold := (h.chain.store hout ⟨⟨f, 1#32⟩, 0#32⟩).foldFrom_eq numberAbove (1#32, 0#32)
      h.chain.length_lt
    rw [foldl_numberAbove] at hfold
    generalize (l ++ [(a, d)]).foldl above 1#32 = fd at hfold hpos habove
    obtain ⟨nodes, hset, hchain⟩ := h.chain.append hcan.1 hout ⟨f, fd⟩
    have hstore : Linked.store (Linked.store t.nodes container ⟨⟨f, 1#32⟩, 0#32⟩) container ⟨⟨f, fd⟩, 0#32⟩
        = Linked.store t.nodes container ⟨⟨f, fd⟩, 0#32⟩ := Function.update_idem _ _ _
    have hfresh : ∀ e ∈ l ++ [(a, d)], e.2.fd ≠ fd := fun e he heq => Nat.lt_irrefl _ (heq ▸ habove e he)
    refine ⟨fd, { t with nodes }, ?_, hpos, hfresh, h.concat ?_ hpos hfresh⟩
    · rw [if_neg (fun hzero => by simpa using h.chain.eq_zero_iff.mp hzero), hfold]
      dsimp only [Option.bind_eq_bind, Option.bind_some]
      rw [hstore, hset]
      rfl
    · rw [List.append_assoc]
      exact hchain

theorem remove (h : t.Represents (l₁ ++ e :: l₂)) {t' : FdTable}
    (hchain : Linked.Chain t'.nodes t'.fileDescs (l₁ ++ l₂)) : t'.Represents (l₁ ++ l₂) where
  chain := hchain
  distinct := h.distinct.sublist (((List.sublist_cons_self e l₂).append_left l₁).map _)
  pos e' he' := h.pos e' (((List.sublist_cons_self e l₂).append_left l₁).subset he')

theorem close (h : t.Represents l) (hcan : t.CanClose fd) :
    ∃ t' l', t.closeFd fd = some t' ∧ t'.Represents l' ∧ fileUnder l' = Function.update (fileUnder l) fd none := by
  obtain ⟨first, hload, hfirst⟩ := hcan
  cases l with
  | nil =>
    rw [h.chain.eq_zero_iff.mpr rfl, Linked.load, if_pos rfl] at hload
    cases hload
  | cons e rest =>
  rw [closeFd, hload]
  dsimp only [Option.bind_eq_bind, Option.bind_some]
  obtain ⟨p, d⟩ := e
  obtain ⟨rfl, q, hload', hrest⟩ := h.chain.head_eq
  obtain rfl := Option.some.inj (hload.symm.trans hload')
  dsimp only at hrest hfirst ⊢
  by_cases hone : q = 0#32
  · obtain rfl := hrest.eq_zero_iff.mp hone
    rw [if_pos hone]
    by_cases hfd : d.fd = fd
    · rw [if_pos hfd]
      rw [← List.nil_append [_]] at h
      refine ⟨_, [], rfl, h.remove .nil, ?_⟩
      rw [← hfd]
      exact fileUnder_remove h.distinct
    · rw [if_neg hfd]
      refine ⟨t, _, rfl, h, update_none fun e he => ?_⟩
      obtain rfl := List.mem_singleton.mp he
      exact hfd
  · rw [if_neg hone]
    obtain ⟨hfind, hnone⟩ | ⟨l₁, a, v, b, w, l₂, hsplit, htest, hfind⟩ :=
      h.chain.findBefore_cases fun d => d.fd = fd
    · rw [hfind, Option.bind_some, if_pos rfl]
      refine ⟨t, _, rfl, h, update_none fun e he => ?_⟩
      obtain rfl | he := List.mem_cons.mp he
      · exact hfirst.resolve_left hone
      · simpa using hnone e he
    · rw [hsplit] at h ⊢
      obtain ⟨hab, hloada, r, hloadb, -⟩ := h.chain.neighbours
      rw [hfind, Option.bind_some, if_neg (Linked.ne_zero_of_load hloada), hloada, Option.bind_some, hloadb,
        Option.bind_some, Linked.setNext, Linked.load_free_of_ne hab, hloada]
      obtain rfl : w.fd = fd := of_decide_eq_true htest
      have hswap : Linked.store (Linked.free t.nodes b) a ⟨v, r⟩ = Linked.free (Linked.store t.nodes a ⟨v, r⟩) b :=
        Function.update_comm hab.symm _ _ _
      have hcons : l₁ ++ (a, v) :: (b, w) :: l₂ = (l₁ ++ [(a, v)]) ++ (b, w) :: l₂ := by simp
      have hcons' : l₁ ++ (a, v) :: l₂ = (l₁ ++ [(a, v)]) ++ l₂ := by simp
      have hchain := h.chain.unlink hloadb
      rw [hcons] at h
      rw [hcons'] at hchain
      refine ⟨⟨Linked.free (Linked.store t.nodes a ⟨v, r⟩) b, t.fileDescs⟩, (l₁ ++ [(a, v)]) ++ l₂,
        congrArg (fun nodes => some (FdTable.mk nodes _)) hswap,
        h.remove (hchain.free h.chain.not_mem_unlink), ?_⟩
      rw [hcons]
      exact fileUnder_remove h.distinct

end Represents

/-! ### Runs -/

theorem represents_empty : empty.Represents [] := ⟨.nil, List.nodup_nil, fun _ he => absurd he List.not_mem_nil⟩

/-- Each call is a step of the map. -/
theorem Represents.step {e : FdEvent} (h : t.Represents l) (hstep : t.Step e t') :
    ∃ l', FdMap.Step (fileUnder l) e (fileUnder l') ∧ t'.Represents l' := by
  obtain ⟨hmeets, hcalled⟩ := hstep
  cases e with
  | append container f fd =>
    obtain ⟨fd', t'', heq, hpos, hfresh, h'⟩ := h.append hmeets hcalled.1 f
    obtain ⟨rfl, rfl⟩ := Prod.mk.inj (Option.some.inj (heq.symm.trans hcalled.2))
    exact ⟨_, ⟨hpos, fileUnder_eq_none.mpr hfresh, fileUnder_concat hfresh⟩, h'⟩
  | close fd =>
    obtain ⟨t'', l', heq, h', hmap⟩ := h.close hmeets
    obtain rfl := Option.some.inj (heq.symm.trans hcalled)
    exact ⟨l', hmap, h'⟩

/-- In every run in which the numbers and the kernel heap last, and nobody closes the first of several
descriptors or one of none, the list is a map from numbers to files, and no call follows a null pointer. -/
theorem fdMap_of_run {events : List FdEvent} (hrun : Transition.Run Step empty events t) :
    ∃ m : FdMap, Transition.Run FdMap.Step (fun _ => none) events m ∧ (∀ fd, t.Finds fd (m fd)) ∧
      (∀ container f, t.CanAppend container → t.nodes container = none →
        ∃ fd t', t.appendFdToProcess container f = some (fd, t')) ∧
      ∀ fd, t.CanClose fd → ∃ t', t.closeFd fd = some t' := by
  obtain ⟨m, hm, l, rfl, h⟩ := hrun.refine FdMap.Step
    (fun t m => ∃ l, m = fileUnder l ∧ t.Represents l) (fun _ => none)
    (fun t m e t' => by
      rintro ⟨l, rfl, h⟩ hstep
      obtain ⟨l', hmap, h'⟩ := h.step hstep
      exact ⟨_, hmap, l', rfl, h'⟩)
    ⟨[], rfl, represents_empty⟩
  refine ⟨_, hm, h.finds, fun container f hcan hnew => ?_, fun fd hcan => ?_⟩
  · obtain ⟨fd, t', heq, -⟩ := h.append hcan hnew f
    exact ⟨fd, t', heq⟩
  · obtain ⟨t', -, heq, -⟩ := h.close hcan
    exact ⟨t', heq⟩

/-- A file of the root directory, as `volOpenFile` returns it. -/
def readme : Fat12.FILE where
  name := [0x61#8]
  flags := .file
  fileLength := 5#32
  id := 0#32
  eof := false
  position := 0#32
  absPosition := 0#32
  currentCluster := 2
  deviceID := 0#32
  timeCreated := 0#16
  dateCreated := 0#16
  parentCluster := -1

/-- One file is open. -/
def oneOpen : FdTable := ⟨Linked.store empty.nodes 0x1000#32 ⟨⟨readme, 1#32⟩, 0#32⟩, 0x1000#32⟩

/-- Two files are open. -/
def twoOpen : FdTable :=
  ⟨Linked.store (Linked.store (Linked.store oneOpen.nodes 0x2000#32 ⟨⟨readme, 1#32⟩, 0#32⟩) 0x2000#32
    ⟨⟨readme, 2#32⟩, 0#32⟩) 0x1000#32 ⟨⟨readme, 1#32⟩, 0x2000#32⟩, 0x1000#32⟩

theorem append_empty : empty.Called (.append 0x1000#32 readme 1#32) oneOpen := ⟨rfl, rfl⟩

theorem append_oneOpen : oneOpen.Called (.append 0x2000#32 readme 2#32) twoOpen := ⟨rfl, rfl⟩

/-- Two files are opened and the second is closed. -/
theorem fdMap_of_run_twoOpen : ∃ t, twoOpen.closeFd 2#32 = some t ∧
    ∃ m : FdMap, Transition.Run FdMap.Step (fun _ => none)
      [.append 0x1000#32 readme 1#32, .append 0x2000#32 readme 2#32, .close 2#32] m ∧
      (∀ fd, t.Finds fd (m fd)) ∧
      (∀ container f, t.CanAppend container → t.nodes container = none →
        ∃ fd t', t.appendFdToProcess container f = some (fd, t')) ∧
      ∀ fd, t.CanClose fd → ∃ t', t.closeFd fd = some t' := by
  refine ⟨_, rfl, fdMap_of_run (.cons ⟨⟨?_, ?_⟩, append_empty⟩ (.cons ⟨⟨?_, ?_⟩, append_oneOpen⟩
    (.cons ⟨⟨_, rfl, .inr ?_⟩, rfl⟩ (.nil _))))⟩
  · decide
  · decide +kernel
  · decide
  · decide +kernel
  · decide

/-- Closing a file when none is open follows a null pointer, as does opening one when the kernel heap is full,
and the first of two files stays open when it is closed. -/
theorem not_fdMap_of_run : empty.closeFd 1#32 = none ∧ empty.appendFdToProcess 0#32 readme = none ∧
    ∃ t, Transition.Run Called empty
        [.append 0x1000#32 readme 1#32, .append 0x2000#32 readme 2#32, .close 1#32] t ∧
      t.getFileByFd 1#32 = some 0x1000#32 :=
  ⟨rfl, rfl, twoOpen, .cons append_empty (.cons append_oneOpen (.cons rfl (.nil _))), by decide +kernel⟩

end FdTable

end Akos
