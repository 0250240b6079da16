import Akos.Tmpfs.Opening
import Mathlib.Data.List.Find

/-!
# Files and directories that are created and opened

In a run of creations the blocks in use are the first ones, each with its number as its id, and the list of a
directory's records leads from the first one to the last and from there down to the second.
-/

namespace Akos.Tmpfs

variable {s s' : Arena} {tails : Tails} {records : Nat → DirRecord} {fname name : List UInt8} {b d fid k n slot : Nat}

/-- The records with one more in a place that is free. -/
def addRecord (records : Nat → DirRecord) (slot fid : Nat) (name : List UInt8) : Nat → DirRecord :=
  Function.update (Function.update records 0 { records 0 with nextRecord := some slot }) slot
    ⟨fid, name.take 10, true, (records 0).nextRecord⟩

/-- The list of `k` records, of ids below `n`. -/
structure Chained (records : Nat → DirRecord) (k n : Nat) : Prop where
  two : 2 ≤ k
  room : k ≤ recordCount
  uses : ∀ slot, (records slot).occupied = decide (slot < k)
  first : (records 0).nextRecord = some (k - 1)
  next : ∀ i, i + 1 < k → (records (i + 1)).nextRecord = if i = 0 then none else some i
  fids : ∀ i < k, (records i).fid < n
  dot : (records 0).name = [46]

/-- The first `n` blocks are in use, without continuation blocks and with their numbers as ids. -/
structure Grown (s : Arena) (n : Nat) : Prop where
  pos : 0 < n
  le : n ≤ blockCount
  used : ∀ b < n, (s b).occupied = true ∧ (s b).fid = b ∧ (s b).type ≠ .subFile ∧ (s b).childBlock = none ∧
    (s b).dataPointer = 0
  free : ∀ b, n ≤ b → (s b).occupied = false
  root : (s 0).type = .dir
  dirs : ∀ b < n, (s b).type = .dir → ∃ k, Chained (s b).records k n

/-! ### Records -/

theorem addRecord_self : addRecord records slot fid name slot = ⟨fid, name.take 10, true, (records 0).nextRecord⟩ :=
  Function.update_self _ _ _

theorem addRecord_of_ne {x : Nat} (h0 : x ≠ 0) (hslot : x ≠ slot) : addRecord records slot fid name x = records x := by
  rw [addRecord, Function.update_of_ne hslot, Function.update_of_ne h0]

theorem addRecord_zero (h0 : slot ≠ 0) :
    addRecord records slot fid name 0 = { records 0 with nextRecord := some slot } := by
  rw [addRecord, Function.update_of_ne h0.symm, Function.update_self]

/-- The other records keep what is in them. -/
theorem addRecord_old {x : Nat} (hslot : x ≠ slot) : (addRecord records slot fid name x).fid = (records x).fid ∧
    (addRecord records slot fid name x).name = (records x).name ∧
    (addRecord records slot fid name x).occupied = (records x).occupied := by
  by_cases h0 : x = 0
  · subst h0
    rw [addRecord_zero hslot.symm]
    exact ⟨rfl, rfl, rfl⟩
  · rw [addRecord_of_ne h0 hslot]
    exact ⟨rfl, rfl, rfl⟩

theorem addRecord_occupied (h : ∀ x, (records x).occupied = decide (x < k)) (x : Nat) :
    (addRecord records k fid name x).occupied = decide (x < k + 1) := by
  by_cases hx : x = k
  · rw [hx, addRecord_self, decide_eq_true (Nat.lt_succ_self k)]
  · rw [(addRecord_old hx).2.2, h, decide_eq_decide]
    omega

/-- A record goes into the first place that is free. -/
theorem addRecordToDir_eq (h : ∀ x, ((s d).records x).occupied = decide (x < k)) :
    s.addRecordToDir fid name d =
      if k < recordCount then some (s.set d { s d with records := addRecord (s d).records k fid name }) else none := by
  have hfind := UsesRecords.find h
  rw [Arena.addRecordToDir, hfind]
  split <;> rfl

theorem Chained.add (h : Chained records k n) (hk : k < recordCount) {n' : Nat} (hn : n ≤ n') (hfid : fid < n') :
    Chained (addRecord records k fid name) (k + 1) n' := by
  have htwo := h.two
  refine ⟨Nat.le_succ_of_le htwo, hk, addRecord_occupied h.uses, ?_, fun i hik => ?_, fun i hik => ?_, ?_⟩
  · rw [addRecord_zero (by omega), Nat.add_sub_cancel]
  · by_cases hlast : i + 1 = k
    · rw [hlast, addRecord_self, h.first, if_neg (by omega), ← hlast, Nat.add_sub_cancel]
    · rw [addRecord_of_ne (Nat.succ_ne_zero i) hlast]
      exact h.next i (by omega)
  · by_cases hlast : i = k
    · rwa [hlast, addRecord_self]
    · rw [(addRecord_old hlast).1]
      exact Nat.lt_of_lt_of_le (h.fids i (by omega)) hn
  · rw [(addRecord_old (by omega)).2.1, h.dot]

/-- The records a new directory starts with. -/
theorem chained_two (hnone : (records 0).nextRecord = none) (huses : ∀ x, (records x).occupied = false) {fid' : Nat}
    (hfid : fid < n) (hfid' : fid' < n) :
    Chained (addRecord (addRecord records 0 fid [46]) 1 fid' [46, 46]) 2 n := by
  have hfirst : ∀ x, (addRecord records 0 fid [46] x).occupied = decide (x < 1) :=
    addRecord_occupied fun x => by rw [huses x, decide_eq_false (Nat.not_lt_zero x)]
  have hself : addRecord records 0 fid [46] 0 = ⟨fid, [46], true, none⟩ := by
    rw [addRecord_self, hnone]
    rfl
  refine ⟨Nat.le_refl 2, by decide, addRecord_occupied hfirst, ?_, fun i hik => ?_, fun i hik => ?_, ?_⟩
  · rw [addRecord_zero (by decide)]
  · obtain rfl : i = 0 := by omega
    rw [addRecord_self, hself, if_pos rfl]
  · obtain rfl | rfl : i = 0 ∨ i = 1 := by omega
    · rw [addRecord_zero (by decide), hself]
      exact hfid
    · rw [addRecord_self]
      exact hfid'
  · rw [addRecord_zero (by decide), hself]

/-! ### The list of a directory's records -/

/-- The places of `k` records in the order of the list. -/
def order (k : Nat) : List Nat := 0 :: (List.range' 1 (k - 1)).reverse

theorem findByName_down (tail : Nat → List UInt8) (fname : List Byte) (h : Chained records k n) {m fuel : Nat}
    (hm : m < k) (hfuel : m < fuel) : findByName tail records fname fuel (if m = 0 then none else some m)
      = some (((List.range' 1 m).reverse.find? fun slot =>
        strcmp (pathBytes ((records slot).cName (tail slot))) fname).map records) := by
  induction m generalizing fuel with
  | zero =>
    obtain ⟨fuel, rfl⟩ := Nat.exists_eq_succ_of_ne_zero (Nat.ne_of_gt hfuel)
    rfl
  | succ m ih =>
    obtain ⟨fuel, rfl⟩ := Nat.exists_eq_succ_of_ne_zero (Nat.ne_of_gt (Nat.lt_of_le_of_lt (Nat.zero_le _) hfuel))
    rw [if_neg (Nat.succ_ne_zero m), findByName, List.range'_1_concat, List.reverse_append, List.reverse_singleton,
      List.singleton_append, List.find?_cons, Nat.add_comm 1 m]
    cases hmatch : strcmp (pathBytes ((records (m + 1)).cName (tail (m + 1)))) fname with
    | true => rfl
    | false =>
      rw [if_neg Bool.false_ne_true, h.next m hm]
      exact ih (Nat.lt_of_succ_lt hm) (Nat.lt_of_succ_lt_succ hfuel)

/-- The loop finds the first record of the list with the name. -/
theorem Chained.findByName (h : Chained records k n) (tail : Nat → List UInt8) (fname : List Byte) :
    findByName tail records fname (recordCount + 1) (some 0)
      = some (((order k).find? fun slot =>
        strcmp (pathBytes ((records slot).cName (tail slot))) fname).map records) := by
  have htwo := h.two
  have hroom := h.room
  rw [Tmpfs.findByName, order, List.find?_cons]
  cases hmatch : strcmp (pathBytes ((records 0).cName (tail 0))) fname with
  | true => rfl
  | false =>
    have hdown := findByName_down tail fname h (show k - 1 < k by omega) (show k - 1 < recordCount by omega)
    rw [if_neg (show k - 1 ≠ 0 by omega)] at hdown
    rw [if_neg Bool.false_ne_true, h.first, hdown]

theorem mem_order (hk : 0 < k) : slot ∈ order k ↔ slot < k := by
  rw [order, List.mem_cons, List.mem_reverse, List.mem_range'_1]
  omega

theorem order_succ (hk : 0 < k) : order (k + 1) = 0 :: k :: (order k).tail := by
  obtain ⟨m, rfl⟩ := Nat.exists_eq_succ_of_ne_zero (Nat.ne_of_gt hk)
  rw [order, order, List.tail_cons, Nat.add_sub_cancel, Nat.succ_sub_one, Nat.succ_eq_add_one, List.range'_1_concat,
    List.reverse_append, List.reverse_singleton, List.singleton_append, Nat.add_comm 1 m]

/-- A record that is not looked for does not change what is found. -/
theorem find?_order_succ {q q' : Nat → Bool} (hk : 0 < k) (hnew : q' k = false) (hold : ∀ x < k, q' x = q x) :
    (order (k + 1)).find? q' = (order k).find? q := by
  have hcons : order k = 0 :: (order k).tail := rfl
  have htail : ∀ x ∈ (order k).tail, q' x = q x := fun x hx =>
    hold x ((mem_order hk).mp (hcons ▸ List.mem_cons_of_mem 0 hx))
  rw [order_succ hk, hcons, List.tail_cons, List.find?_cons, List.find?_cons, List.find?_cons, hnew, hold 0 hk,
    List.find?_congr htail]

/-! ### Creations -/

/-- The type of block that is made for a handle's flags. -/
def typeOf (flags : Flags) : BlockType := if flags = .file then .file else .dir

theorem directory_of_typeOf {flags : Flags} (hflags : flags ≠ .invalid) (h : typeOf flags = .dir) :
    flags = .directory := by
  cases flags with
  | file => cases h
  | directory => rfl
  | invalid => exact absurd rfl hflags

/-- What a creation changes: directory `d` gets a record behind its `k` others, and block `n` becomes the new file's or
directory's. -/
structure Creation (s s' : Arena) (n d k : Nat) (fname : List UInt8) (flags : Flags) : Prop where
  lt : n < blockCount
  free : s.firstFree = some n
  dir : d < n
  type : (s d).type = .dir
  list : Chained (s d).records k n
  room : k < recordCount
  target : s' d = { s d with records := addRecord (s d).records k n (fname.take 31) }
  others : ∀ b, b ≠ n → b ≠ d → s' b = s b
  made : ∃ records, s' n = { Arena.newBlock d (typeOf flags) n n fname with records } ∧
    (flags = .directory → Chained records 2 (n + 1) ∧ ∀ slot < 2, (records slot).fid = n → (records slot).name = [46])

namespace Grown

variable {file : FILE} {flags : Flags}

theorem getFaddrById (h : Grown s n) (hb : b < n) : s.getFaddrById b = some b := by
  rw [Arena.getFaddrById_eq_some_iff]
  refine ⟨⟨(h.used b hb).2.1, (h.used b hb).2.2.1⟩, Nat.lt_of_lt_of_le hb h.le, fun x hx hfid => ?_⟩
  rw [(h.used x (hx.trans hb)).2.1] at hfid
  exact absurd hfid (Nat.ne_of_lt hx)

theorem lookup (h : Grown s n) (hlookup : s.lookup fid .dir = some b) : b = fid ∧ fid < n ∧ (s fid).type = .dir := by
  rw [Arena.lookup, Option.filter_eq_some_iff] at hlookup
  obtain ⟨hfaddr, htest⟩ := hlookup
  obtain ⟨hocc, htype⟩ := Bool.and_eq_true_iff.mp htest
  have hb : b < n := Nat.lt_of_not_le fun hle => by
    rw [h.free b hle] at hocc
    cases hocc
  obtain rfl : b = fid := (h.used b hb).2.1.symm.trans (Arena.getFaddrById_eq_some_iff.mp hfaddr).1.1
  exact ⟨rfl, hb, of_decide_eq_true htype⟩

theorem firstFree (h : Grown s n) (hfree : s.firstFree = some b) : b = n ∧ n < blockCount := by
  obtain ⟨hb, hlt, hfront⟩ := Arena.firstFree_eq_some_iff.mp hfree
  have hle : n ≤ b := Nat.le_of_not_lt fun hbn => by
    rw [(h.used b hbn).1] at hb
    cases hb
  have heq : b = n := Nat.le_antisymm (Nat.le_of_not_lt fun hnb => by
    have hocc := hfront n hnb
    rw [h.free n (Nat.le_refl n)] at hocc
    cases hocc) hle
  exact ⟨heq, heq ▸ hlt⟩

theorem getNextFid (h : Grown s n) (hfree : s.firstFree = some n) : s.getNextFid = some n := by
  rw [Arena.getNextFid_eq hfree, List.countP_eq_length.mpr fun x hx => ?_, List.length_range]
  exact decide_eq_true (h.used x (List.mem_range.mp hx)).2.2.1

/-- The record of a new block. -/
theorem addRecord_new (hd : d < n) (hk : Chained (s d).records k n) {t : Arena} {block : Block}
    (hadd : (s.set n block).addRecordToDir fid name d = some t) : k < recordCount ∧
      t d = { s d with records := addRecord (s d).records k fid name } ∧ t n = block ∧
      ∀ b, b ≠ n → b ≠ d → t b = s b := by
  have hne : d ≠ n := Nat.ne_of_lt hd
  have hsame : (s.set n block) d = s d := Arena.set_of_ne hne
  rw [addRecordToDir_eq (k := k) (by rw [hsame]; exact hk.uses), hsame] at hadd
  obtain ⟨hroom, rfl⟩ := Option.ite_none_right_eq_some.mp hadd |>.imp_right Option.some.inj
  refine ⟨hroom, Arena.set_self, ?_, fun b hbn hbd => ?_⟩
  · rw [Arena.set_of_ne hne.symm, Arena.set_self]
  · rw [Arena.set_of_ne hbd, Arena.set_of_ne hbn]

theorem create_spec (h : Grown s n) (hfile : file.flags = .directory) (hflags : flags ≠ .invalid)
    (hcreate : s.tfsysCreate file fname flags = some s') : ∃ k, Creation s s' n file.id k fname flags := by
  obtain ⟨parent, hparent, hblock⟩ : ∃ parent, s.lookup file.id .dir = some parent ∧
      (s.createBlock parent (typeOf flags) fname).map Prod.snd = some s' := by
    unfold Arena.tfsysCreate at hcreate
    rw [hfile] at hcreate
    cases flags with
    | invalid => exact absurd rfl hflags
    | file => exact Option.bind_eq_some_iff.mp hcreate
    | directory => exact Option.bind_eq_some_iff.mp hcreate
  obtain ⟨rfl, hid, htype⟩ := h.lookup hparent
  obtain ⟨k, hk⟩ := h.dirs _ hid htype
  obtain ⟨r, hr, rfl⟩ := Option.map_eq_some_iff.mp hblock
  rw [Arena.createBlock] at hr
  obtain ⟨m, hfree, hr⟩ := Option.bind_eq_some_iff.mp hr
  obtain ⟨rfl, hn⟩ := h.firstFree hfree
  refine ⟨k, ?_⟩
  cases flags with
  | invalid => exact absurd rfl hflags
  | file =>
    rw [typeOf, if_pos rfl] at hr
    obtain ⟨fid, hfid, hr⟩ := Option.bind_eq_some_iff.mp hr
    obtain rfl := Option.some.inj ((h.getNextFid hfree).symm.trans hfid)
    obtain ⟨t, ht, hr⟩ := Option.bind_eq_some_iff.mp hr
    obtain rfl := Option.some.inj hr
    obtain ⟨hroom, hdir, hnew, hothers⟩ := addRecord_new hid hk ht
    exact ⟨hn, hfree, hid, htype, hk, hroom, hdir, hothers, _, hnew, fun hflags => by cases hflags⟩
  | directory =>
    rw [typeOf, if_neg (by decide)] at hr
    obtain ⟨fid, hfid, hr⟩ := Option.bind_eq_some_iff.mp hr
    obtain rfl := Option.some.inj ((h.getNextFid hfree).symm.trans hfid)
    obtain ⟨t, ht, hr⟩ := Option.bind_eq_some_iff.mp hr
    obtain ⟨u, hu, hr⟩ := Option.bind_eq_some_iff.mp hr
    obtain ⟨v, hv, hr⟩ := Option.bind_eq_some_iff.mp hr
    obtain rfl := Option.some.inj hr
    obtain ⟨hroom, hdir, hnew, hothers⟩ := addRecord_new hid hk ht
    have hblank : ∀ x, ((t m).records x).occupied = false := fun x => by
      rw [hnew]
      rfl
    have hzero : ∀ x, ((t m).records x).occupied = decide (x < 0) := fun x => by
      rw [hblank, decide_eq_false (Nat.not_lt_zero x)]
    rw [addRecordToDir_eq hzero, if_pos (by decide), Option.some.injEq] at hu
    subst hu
    have hone : ∀ x, ((t.set m { t m with records := addRecord (t m).records 0 m [46] } m).records x).occupied
        = decide (x < 1) := fun x => by
      rw [Arena.set_self]
      exact addRecord_occupied hzero x
    rw [addRecordToDir_eq hone, if_pos (by decide), Option.some.injEq] at hv
    subst hv
    have hne : file.id ≠ m := Nat.ne_of_lt hid
    have hfid : (t file.id).fid = file.id := by
      rw [hdir]
      exact (h.used _ hid).2.1
    have hnext : ((t m).records 0).nextRecord = none := by
      rw [hnew]
      rfl
    refine ⟨hn, hfree, hid, htype, hk, hroom, ?_, fun b hbm hbd => ?_,
      addRecord (addRecord (t m).records 0 m [46]) 1 file.id [46, 46], ?_, fun _ => ⟨?_, fun slot hslot => ?_⟩⟩
    · dsimp only
      rw [Arena.set_of_ne hne, Arena.set_of_ne hne, hdir]
    · dsimp only
      rw [Arena.set_of_ne hbm, Arena.set_of_ne hbm, hothers b hbm hbd]
    · dsimp only
      rw [Arena.set_of_ne hne, hfid, Arena.set_self, Arena.set_self, hnew]
      rfl
    · exact chained_two hnext hblank (Nat.lt_succ_self m) (Nat.lt_succ_of_lt hid)
    · obtain rfl | rfl : slot = 0 ∨ slot = 1 := by omega
      · rw [(addRecord_old (by decide)).2.1, addRecord_self]
        exact fun _ => rfl
      · rw [addRecord_self]
        exact fun heq => absurd heq hne

end Grown

namespace Creation

variable {flags : Flags}

/-- The metadata of the blocks in use before. -/
theorem old (c : Creation s s' n d k fname flags) (hb : b < n) : (s' b).occupied = (s b).occupied ∧
    (s' b).fid = (s b).fid ∧ (s' b).type = (s b).type ∧ (s' b).childBlock = (s b).childBlock ∧
    (s' b).dataPointer = (s b).dataPointer := by
  by_cases hbd : b = d
  · rw [hbd, c.target]
    exact ⟨rfl, rfl, rfl, rfl, rfl⟩
  · rw [c.others b (Nat.ne_of_lt hb) hbd]
    exact ⟨rfl, rfl, rfl, rfl, rfl⟩

theorem grown (c : Creation s s' n d k fname flags) (h : Grown s n) (hflags : flags ≠ .invalid) :
    Grown s' (n + 1) := by
  obtain ⟨records, hnew, hrecords⟩ := c.made
  have hlt := c.dir
  have hsub : typeOf flags ≠ .subFile := by
    rw [typeOf]
    split <;> decide
  refine ⟨Nat.succ_pos n, c.lt, fun b hb => ?_, fun b hb => ?_, ?_, fun b hb hbdir => ?_⟩
  · by_cases hbn : b = n
    · rw [hbn, hnew]
      exact ⟨rfl, rfl, hsub, rfl, rfl⟩
    · obtain ⟨ho, hf, ht, hc, hd⟩ := c.old (show b < n by omega)
      rw [ho, hf, ht, hc, hd]
      exact h.used b (by omega)
  · rw [c.others b (by omega) (by omega)]
    exact h.free b (by omega)
  · rw [(c.old h.pos).2.2.1]
    exact h.root
  · by_cases hbn : b = n
    · subst hbn
      rw [hnew] at hbdir ⊢
      exact ⟨2, (hrecords (directory_of_typeOf hflags hbdir)).1⟩
    · by_cases hbd : b = d
      · subst hbd
        rw [c.target]
        exact ⟨k + 1, c.list.add c.room (Nat.le_succ n) (Nat.lt_succ_self n)⟩
      · rw [c.others b hbn hbd] at hbdir ⊢
        obtain ⟨j, hj⟩ := h.dirs b (by omega) hbdir
        exact ⟨j, { hj with fids := fun i hi => Nat.lt_succ_of_lt (hj.fids i hi) }⟩

end Creation

/-- The state behind a call. -/
theorem Grown.create {file : FILE} {flags : Flags} (h : Grown s n)
    (hcreate : s.tfsysCreate file fname flags = some s') : ∃ n', Grown s' n' := by
  by_cases hcall : file.flags = .directory ∧ flags ≠ .invalid
  · obtain ⟨k, c⟩ := h.create_spec hcall.1 hcall.2 hcreate
    exact ⟨n + 1, c.grown h hcall.2⟩
  · refine ⟨n, ?_⟩
    unfold Arena.tfsysCreate at hcreate
    split at hcreate
    · next hfile => exact absurd ⟨hfile, by decide⟩ hcall
    · next hfile => exact absurd ⟨hfile, by decide⟩ hcall
    · exact Option.some.inj hcreate ▸ h

/-- Memory of which the first block has no record that is in use, and no place a first record would lead to. -/
structure Blank (memory : Arena) : Prop where
  unused : ∀ slot, ((memory 0).records slot).occupied = false
  next : ((memory 0).records 0).nextRecord = none

/-- What `tfsys_init` leaves. -/
theorem tfsysInit_eq {memory : Arena} (hblank : Blank memory) (hinit : Arena.tfsysInit memory = some s) :
    s = Arena.set (fun b => { memory b with occupied := false }) 0
      { memory 0 with
        parentBlock := some 0
        childBlock := none
        type := .dir
        fid := 0
        bid := 0
        dataPointer := 0
        occupied := true
        name := [92]
        records := addRecord (addRecord (memory 0).records 0 0 [46]) 1 0 [46, 46] } := by
  rw [Arena.tfsysInit, Arena.createBaseDir] at hinit
  obtain ⟨t, ht, hu⟩ := Option.bind_eq_some_iff.mp hinit
  have hzero : ∀ x, ((memory 0).records x).occupied = decide (x < 0) := fun x => by
    rw [hblank.unused, decide_eq_false (Nat.not_lt_zero x)]
  rw [addRecordToDir_eq (k := 0) (by rw [Arena.set_self]; exact hzero), if_pos (by decide), Option.some.injEq,
    Arena.set_self, Arena.set_set] at ht
  subst ht
  rw [addRecordToDir_eq (k := 1) (by rw [Arena.set_self]; exact addRecord_occupied hzero), if_pos (by decide),
    Option.some.injEq, Arena.set_self, Arena.set_set] at hu
  exact hu.symm

theorem grown_tfsysInit {memory : Arena} (hblank : Blank memory) (hinit : Arena.tfsysInit memory = some s) :
    Grown s 1 := by
  rw [tfsysInit_eq hblank hinit]
  refine ⟨by decide, by decide, fun b hb => ?_, fun b hb => ?_, ?_, fun b hb _ => ⟨2, ?_⟩⟩
  · obtain rfl : b = 0 := by omega
    rw [Arena.set_self]
    exact ⟨rfl, rfl, (fun h => by cases h), rfl, rfl⟩
  · rw [Arena.set_of_ne (by omega)]
  · rw [Arena.set_self]
  · obtain rfl : b = 0 := by omega
    rw [Arena.set_self]
    exact chained_two hblank.next hblank.unused (by decide) (by decide)

end Akos.Tmpfs
