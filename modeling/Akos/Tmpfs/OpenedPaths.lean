import Akos.Tmpfs.Creations

/-!
# What a created name opens

A path that ends in a created name opens the new file or directory where the record holds all of the name, and every
path that could be opened before leads where it led.
-/

namespace Akos.Tmpfs

variable {s s' : Arena} {tails : Tails} {records : Nat → DirRecord} {fname name : List UInt8} {b d fid k n slot : Nat}

/-! ### What is opened -/

/-- The first place of a directory without a record. -/
def Arena.freeRecord (s : Arena) (b : Nat) : Option Nat :=
  (List.range recordCount).find? fun slot => !((s b).records slot).occupied

/-- The handle of a block in a state of creations, where all lengths are 0. -/
def handle (s : Arena) (b : Nat) : FILE := ⟨if (s b).type = .file then .file else .directory, 0, b, false, 0⟩

/-- What a creation should leave: the path of the directory followed by the name opens the new block, and every path
that could be opened opens the same file or directory. -/
structure OpensCreated (tails : Tails) (s s' : Arena) (names : List (List Byte)) (name : List UInt8) (flags : Flags) :
    Prop where
  created : ∀ junk, ∃ f, s'.tfsysOpen tails junk (joinPieces backslash (names ++ [pathBytes name])) = some f ∧
    (∀ n, s.firstFree = some n → f.id = (s' n).fid) ∧ f.flags = flags ∧ f.fileLength = 0
  others : ∀ junk path f, s.tfsysOpen tails junk path = some f → f.flags ≠ .invalid → ∀ junk', ∃ f',
    s'.tfsysOpen tails junk' path = some f' ∧ f'.id = f.id ∧ f'.flags = f.flags

section Open

variable {junk junk' : FILE} {f g : FILE} {p : List Byte} {record : DirRecord}

theorem pathBytes_inj {name name' : List UInt8} : pathBytes name = pathBytes name' ↔ name = name' :=
  List.map_inj_right fun _ _ => UInt8.toBitVec_inj.mp

theorem handle_flags (h : (s b).type ≠ .subFile) : (handle s b).flags ≠ .invalid ∧
    ((handle s b).flags = .directory → (s b).type = .dir) := by
  rw [handle]
  cases htype : (s b).type with
  | file => simp
  | subFile => exact absurd htype h
  | dir => simp

theorem Grown.openRecord (h : Grown s n) (hrecord : record.fid < n) :
    s.openRecord record = some (handle s record.fid) := by
  obtain ⟨-, -, -, hchild, hdata⟩ := h.used _ hrecord
  have hsize : s.size record.fid = some 0 := by
    rw [Arena.size, h.getFaddrById hrecord, Option.bind_eq_bind, Option.bind_some, Arena.sizeFrom, hchild, hdata]
    rfl
  rw [Arena.openRecord, hsize, h.getFaddrById hrecord]
  rfl

/-- A name is looked up in the list of a directory. -/
theorem Grown.openIn (h : Grown s n) (hb : b < n) (hk : Chained (s b).records k n) (junk : FILE) (p : List Byte) :
    s.openIn tails junk b p = some (((order k).find? fun slot =>
      strcmp (pathBytes (((s b).records slot).cName (tails b slot))) p).elim { junk with flags := .invalid } fun slot =>
        handle s ((s b).records slot).fid) := by
  rw [Arena.openIn, h.getFaddrById hb, Option.bind_eq_bind, Option.bind_some, hk.findByName, Option.bind_eq_bind,
    Option.bind_some]
  cases hfind : (order k).find? fun slot => strcmp (pathBytes (((s b).records slot).cName (tails b slot))) p with
  | none => rfl
  | some slot =>
    have hslot := (mem_order (Nat.lt_of_lt_of_le (by decide) hk.two)).mp (List.mem_of_find?_eq_some hfind)
    exact h.openRecord (hk.fids slot hslot)

/-- The record a valid handle comes from. -/
theorem Grown.record_of_openIn (h : Grown s n) (hb : b < n) (hk : Chained (s b).records k n)
    (hopen : s.openIn tails junk b p = some g) (hg : g.flags ≠ .invalid) : ∃ slot < k,
      (order k).find? (fun slot => strcmp (pathBytes (((s b).records slot).cName (tails b slot))) p) = some slot ∧
      pathBytes (((s b).records slot).cName (tails b slot)) = p ∧ ((s b).records slot).fid < n ∧
      g = handle s ((s b).records slot).fid := by
  rw [h.openIn hb hk] at hopen
  cases hfind : (order k).find? fun slot => strcmp (pathBytes (((s b).records slot).cName (tails b slot))) p with
  | none =>
    rw [hfind, Option.elim_none, Option.some.injEq] at hopen
    exact absurd (hopen ▸ rfl) hg
  | some slot =>
    rw [hfind, Option.elim_some, Option.some.injEq] at hopen
    have hslot := (mem_order (Nat.lt_of_lt_of_le (by decide) hk.two)).mp (List.mem_of_find?_eq_some hfind)
    have hmatch := List.find?_some hfind
    exact ⟨slot, hslot, rfl, by simpa [strcmp] using hmatch, hk.fids slot hslot, hopen.symm⟩

variable {flags : Flags} {junks junks' : Nat → FILE} {names : List (List Byte)} {f' : FILE} {i : Nat}

/-- A handle that leads on: in a state of creations, to a directory in use. -/
def LeadsOn (s : Arena) (n : Nat) (f : FILE) : Prop := f.flags = .directory → f.id < n ∧ (s f.id).type = .dir

theorem Grown.leadsOn_handle (h : Grown s n) (hb : b < n) : LeadsOn s n (handle s b) :=
  fun hdir => ⟨hb, (handle_flags (h.used b hb).2.2.1).2 hdir⟩

/-- A component that led somewhere leads there still, unless the new record has its name. -/
theorem Creation.openIn (c : Creation s s' n d k fname flags) (h : Grown s n) (h' : Grown s' (n + 1)) (hb : b < n)
    (hdir : (s b).type = .dir) (hopen : s.openIn tails junk b p = some g) (hg : g.flags ≠ .invalid)
    (hname : b = d → pathBytes (((s' d).records k).cName (tails d k)) ≠ p) (junk' : FILE) :
    s'.openIn tails junk' b p = some g ∧ LeadsOn s n g := by
  have hold : ∀ x < n, handle s' x = handle s x := fun x hx => by rw [handle, handle, (c.old hx).2.2.1]
  by_cases hbd : b = d
  · subst hbd
    obtain ⟨slot, hslot, hfind, -, hfid, rfl⟩ := h.record_of_openIn hb c.list hopen hg
    refine ⟨?_, h.leadsOn_handle hfid⟩
    have hk : 0 < k := Nat.lt_of_lt_of_le (by decide) c.list.two
    have hlist : Chained (s' b).records (k + 1) (n + 1) := by
      rw [c.target]
      exact c.list.add c.room (Nat.le_succ n) (Nat.lt_succ_self n)
    have hsame : ∀ x < k, ((s' b).records x).name = ((s b).records x).name ∧
        ((s' b).records x).fid = ((s b).records x).fid := fun x hx => by
      rw [c.target]
      exact ⟨(addRecord_old (Nat.ne_of_lt hx)).2.1, (addRecord_old (Nat.ne_of_lt hx)).1⟩
    have hfound : (order (k + 1)).find? (fun slot =>
        strcmp (pathBytes (((s' b).records slot).cName (tails b slot))) p) = some slot := by
      refine (find?_order_succ hk (by simpa [strcmp] using hname rfl) fun x hx => ?_).trans hfind
      rw [DirRecord.cName, DirRecord.cName, (hsame x hx).1]
    rw [h'.openIn (Nat.lt_succ_of_lt hb) hlist, hfound, Option.elim_some, (hsame slot hslot).2, hold _ hfid]
  · obtain ⟨j, hj⟩ := h.dirs b hb hdir
    obtain ⟨slot, hslot, hfind, -, hfid, rfl⟩ := h.record_of_openIn hb hj hopen hg
    refine ⟨?_, h.leadsOn_handle hfid⟩
    have hsame := c.others b (Nat.ne_of_lt hb) hbd
    have hlist : Chained (s' b).records j (n + 1) := by
      rw [hsame]
      exact { hj with fids := fun i hi => Nat.lt_succ_of_lt (hj.fids i hi) }
    rw [h'.openIn (Nat.lt_succ_of_lt hb) hlist, hsame, hfind, Option.elim_some, hold _ hfid]

/-- A path that led somewhere leads there still, unless the new record has the name of a component. -/
theorem Creation.descend (c : Creation s s' n d k fname flags) (h : Grown s n) (h' : Grown s' (n + 1))
    (hopen : s.descend tails junks i names f = some g) (hf : f.flags ≠ .invalid) (hg : g.flags ≠ .invalid)
    (hleads : LeadsOn s n f) (hsame : f'.flags = f.flags ∧ f'.id = f.id)
    (hname : ∀ junk p g, s.openIn tails junk d p = some g → g.flags ≠ .invalid →
      pathBytes (((s' d).records k).cName (tails d k)) ≠ p) (junks' : Nat → FILE) :
    ∃ g', s'.descend tails junks' i names f' = some g' ∧ g'.flags = g.flags ∧ g'.id = g.id ∧ LeadsOn s n g := by
  induction names generalizing i f f' with
  | nil =>
    obtain rfl := Option.some.inj hopen
    exact ⟨f', rfl, hsame.1, hsame.2, hleads⟩
  | cons p names ih =>
    obtain ⟨e, hvalid, hdir, he, hrest⟩ := Arena.descend_cons_valid hopen hg
    obtain ⟨hid, htype⟩ := hleads hdir
    obtain ⟨hopen', hleads'⟩ := c.openIn h h' hid htype he hvalid (fun heq => hname _ p e (heq ▸ he) hvalid) (junks' i)
    rw [Arena.descend_cons (hsame.1.trans hdir) (hsame.2 ▸ hopen') hvalid]
    exact ih hrest hvalid hleads' ⟨rfl, rfl⟩

/-- The last component of a path is looked up in a directory. -/
theorem Grown.last_of_descend (h : Grown s n) (hopen : s.descend tails junks i (names ++ [p]) f = some g)
    (hg : g.flags ≠ .invalid) (hleads : LeadsOn s n f) : ∃ junk, ∃ b < n, (s b).type = .dir ∧
      s.openIn tails junk b p = some g := by
  induction names generalizing i f with
  | nil =>
    obtain ⟨e, -, hdir, he, hrest⟩ := Arena.descend_cons_valid hopen hg
    obtain rfl := Option.some.inj hrest
    exact ⟨junks i, f.id, (hleads hdir).1, (hleads hdir).2, he⟩
  | cons q names ih =>
    obtain ⟨e, hvalid, hdir, he, hrest⟩ := Arena.descend_cons_valid hopen hg
    obtain ⟨hid, htype⟩ := hleads hdir
    obtain ⟨j, hj⟩ := h.dirs f.id hid htype
    obtain ⟨slot, -, -, -, hfid, rfl⟩ := h.record_of_openIn hid hj he hvalid
    exact ih hrest (h.leadsOn_handle hfid)

theorem Chained.length_eq {j m : Nat} (hk : Chained records k n) (hj : Chained records j m) : k = j := by
  have hslot : ∀ x, x < k ↔ x < j := fun x => by rw [← decide_eq_decide, ← hk.uses, hj.uses]
  have hkj := hslot k
  have hjk := hslot j
  omega

/-- A record with the id of the new block is the one made for it or the new directory's own. -/
theorem Creation.name_of_fid (c : Creation s s' n d k fname flags) (h : Grown s n) (hflags : flags ≠ .invalid)
    (hb : b < n + 1) (hdir : (s' b).type = .dir) {j : Nat} (hj : Chained (s' b).records j (n + 1)) (hslot : slot < j)
    (hfid : ((s' b).records slot).fid = n) : b = d ∧ slot = k ∨ ((s' b).records slot).name = [46] := by
  by_cases hbn : b = n
  · obtain ⟨records, hnew, hrecords⟩ := c.made
    subst hbn
    rw [hnew] at hdir hj hfid ⊢
    obtain ⟨htwo, hnames⟩ := hrecords (directory_of_typeOf hflags hdir)
    exact .inr (hnames slot (htwo.length_eq hj ▸ hslot) hfid)
  · have hlt : b < n := by omega
    by_cases hbd : b = d
    · subst hbd
      refine .inl ⟨rfl, by_contra fun hne => ?_⟩
      rw [c.target] at hj hfid
      have hlist : Chained (addRecord (s b).records k n (fname.take 31)) (k + 1) (n + 1) :=
        c.list.add c.room (Nat.le_succ n) (Nat.lt_succ_self n)
      rw [← hlist.length_eq hj] at hslot
      rw [(addRecord_old hne).1] at hfid
      exact absurd hfid (Nat.ne_of_lt (c.list.fids slot (by omega)))
    · rw [c.others b hbn hbd] at hdir hj hfid
      obtain ⟨j', hj'⟩ := h.dirs b hlt hdir
      exact absurd hfid (Nat.ne_of_lt (hj'.fids slot (hj'.length_eq hj ▸ hslot)))

/-- The name of the new record, as it is looked up. -/
theorem Creation.cName_new (c : Creation s s' n d k fname flags) (tail : List UInt8) :
    ((s' d).records k).cName tail = fname ↔ fname.length < 10 ∨ tail.takeWhile (· ≠ 0) = fname.drop 10 := by
  have hname : ((s' d).records k).name = fname.take 10 := by
    rw [c.target]
    dsimp only
    rw [addRecord_self, List.take_take]
    rfl
  rw [DirRecord.cName, hname, List.length_take]
  by_cases hshort : fname.length < 10
  · rw [if_pos (by omega), List.take_of_length_le (Nat.le_of_lt hshort)]
    exact iff_of_true rfl (.inl hshort)
  · rw [if_neg (by omega), or_iff_right hshort]
    conv_lhs => rhs; rw [← List.take_append_drop 10 fname]
    exact List.append_right_inj _

end Open

/-! ### Over runs of creations -/

section Runs

variable {memory : Arena} {file dir : FILE} {flags : Flags} {junk : Nat → FILE} {names : List (List Byte)}
  {calls : List (FILE × List UInt8 × Flags)}

/-- A call of `tfsys_create`. -/
def CreateStep (s : Arena) (call : FILE × List UInt8 × Flags) (s' : Arena) : Prop :=
  s.tfsysCreate call.1 call.2.1 call.2.2 = some s'

theorem grown_of_run (hblank : Blank memory) (hinit : Arena.tfsysInit memory = some s)
    (hrun : Transition.Run CreateStep s calls s') : ∃ n, Grown s' n :=
  hrun.invariant (fun s => ∃ n, Grown s n) (fun _ _ _ h hcall => h.elim fun _ h => h.create hcall)
    ⟨1, grown_tfsysInit hblank hinit⟩

theorem ne_of_concat (hne : name ≠ []) : names ++ [pathBytes name] ≠ [[]] := fun heq => by
  obtain ⟨-, hempty⟩ := List.append_inj' (show names ++ [pathBytes name] = [] ++ [[]] from heq) rfl
  rw [List.cons.injEq, pathBytes, List.map_eq_nil_iff] at hempty
  exact hne hempty.1

theorem opensCreated_of_cName (h : Grown s n) (c : Creation s s' n dir.id k name flags) (hflags : flags ≠ .invalid)
    (hnames : ∀ p ∈ names, backslash ∉ p) (hroot : names ≠ [[]])
    (hopen : s.tfsysOpen tails junk (joinPieces backslash names) = some dir) (hdir : dir.flags = .directory)
    (hne : name ≠ []) (hslash : backslash ∉ pathBytes name)
    (hnew : ∀ slot, ((s dir.id).records slot).occupied = true →
      ((s dir.id).records slot).cName (tails dir.id slot) ≠ name)
    (hname : ((s' dir.id).records k).cName (tails dir.id k) = name) : OpensCreated tails s s' names name flags := by
  have h' := c.grown h hflags
  have hbase : ∀ junk, LeadsOn s n (Arena.baseDir junk) := fun _ _ => ⟨h.pos, h.root⟩
  have hsame : ∀ junk junk', (Arena.baseDir junk').flags = (Arena.baseDir junk).flags ∧
      (Arena.baseDir junk').id = (Arena.baseDir junk).id := fun _ _ => ⟨rfl, rfl⟩
  -- no component that is found in the directory is the new name
  have hother : ∀ junk p g, s.openIn tails junk dir.id p = some g → g.flags ≠ .invalid →
      pathBytes (((s' dir.id).records k).cName (tails dir.id k)) ≠ p := fun junk p g hg hvalid heq => by
    obtain ⟨slot, hslot, -, hmatch, -⟩ := h.record_of_openIn c.dir c.list hg hvalid
    rw [hname, ← hmatch, pathBytes_inj] at heq
    exact hnew slot (by rw [c.list.uses, decide_eq_true hslot]) heq.symm
  refine ⟨fun junk' => ?_, fun junk path f hf hvalid junk' => ?_⟩
  · rw [Arena.tfsysOpen_joinPieces hnames hroot] at hopen
    obtain ⟨g, hg, hflags', hid, -⟩ := c.descend h h' hopen (by simp [Arena.baseDir]) (by simp [hdir]) (hbase _)
      (hsame (junk 0) (junk' 0)) hother junk'
    have hlist : Chained (s' dir.id).records (k + 1) (n + 1) := by
      rw [c.target]
      exact c.list.add c.room (Nat.le_succ n) (Nat.lt_succ_self n)
    have hk : 0 < k := Nat.lt_of_lt_of_le (by decide) c.list.two
    have hzero : ((s' dir.id).records 0).cName (tails dir.id 0) ≠ name := by
      rw [DirRecord.cName, hlist.dot, ← c.list.dot, ← DirRecord.cName]
      exact hnew 0 (by rw [c.list.uses, decide_eq_true hk])
    have hfound : (order (k + 1)).find? (fun slot =>
        strcmp (pathBytes (((s' dir.id).records slot).cName (tails dir.id slot))) (pathBytes name)) = some k := by
      rw [order_succ hk, List.find?_cons_of_neg (by simpa [strcmp, pathBytes_inj] using hzero),
        List.find?_cons_of_pos (by simp [strcmp, hname])]
    have hfid : ((s' dir.id).records k).fid = n := by
      rw [c.target]
      dsimp only
      rw [addRecord_self]
    have hlast : s'.openIn tails (junk' (0 + names.length)) g.id (pathBytes name) = some (handle s' n) := by
      rw [hid, h'.openIn (Nat.lt_succ_of_lt c.dir) hlist, hfound, Option.elim_some, hfid]
    have htype : (s' n).type = typeOf flags := by
      obtain ⟨records, hmade, -⟩ := c.made
      rw [hmade]
      rfl
    have hhandle : (handle s' n).flags = flags := by
      rw [handle, htype]
      cases flags with
      | invalid => exact absurd rfl hflags
      | file => rfl
      | directory => rfl
    have hpieces : ∀ p ∈ names ++ [pathBytes name], backslash ∉ p :=
      List.forall_mem_append.mpr ⟨hnames, List.forall_mem_singleton.mpr hslash⟩
    refine ⟨handle s' n, ?_, fun m hm => ?_, hhandle, rfl⟩
    · rw [Arena.tfsysOpen_joinPieces hpieces (ne_of_concat hne),
        Arena.descend_append hg (by rw [hflags', hdir]; decide),
        Arena.descend_cons (hflags'.trans hdir) hlast (by rwa [hhandle])]
      rfl
    · obtain rfl := Option.some.inj (c.free.symm.trans hm)
      exact (h'.used n (Nat.lt_succ_self n)).2.1.symm
  · by_cases hpath : path = [backslash] ∨ path = []
    · have hopens : ∀ t : Arena, ∀ junk, t.tfsysOpen tails junk path = some (Arena.baseDir (junk 0)) := fun t junk =>
        if_pos (by simpa [strcmp] using hpath)
      rw [hopens] at hf ⊢
      obtain rfl := Option.some.inj hf
      exact ⟨_, rfl, rfl, rfl⟩
    · obtain ⟨hslash', hempty⟩ := not_or.mp hpath
      rw [Arena.tfsysOpen_eq hslash' hempty] at hf ⊢
      obtain ⟨g, hg, hflags', hid, -⟩ := c.descend h h' hf (by simp [Arena.baseDir]) hvalid (hbase _)
        (hsame (junk 0) (junk' 0)) hother junk'
      exact ⟨g, hg, hid, hflags'⟩

/-- The path ends at a record with the name. -/
theorem cName_of_opensCreated (h : Grown s n) (c : Creation s s' n dir.id k name flags) (hflags : flags ≠ .invalid)
    (hnames : ∀ p ∈ names, backslash ∉ p) (hne : name ≠ []) (hslash : backslash ∉ pathBytes name)
    (hnew : ∀ slot, ((s dir.id).records slot).occupied = true →
      ((s dir.id).records slot).cName (tails dir.id slot) ≠ name)
    (hopens : OpensCreated tails s s' names name flags) :
    ((s' dir.id).records k).cName (tails dir.id k) = name := by
  have h' := c.grown h hflags
  obtain ⟨f, hf, hid, hflags', -⟩ := hopens.created fun _ => ⟨.invalid, 0, 0, false, 0⟩
  have hpieces : ∀ p ∈ names ++ [pathBytes name], backslash ∉ p :=
    List.forall_mem_append.mpr ⟨hnames, List.forall_mem_singleton.mpr hslash⟩
  rw [Arena.tfsysOpen_joinPieces hpieces (ne_of_concat hne)] at hf
  obtain ⟨junk', b, hb, hbdir, hopen'⟩ := h'.last_of_descend hf (hflags' ▸ hflags) fun _ =>
    ⟨h'.pos, h'.root⟩
  obtain ⟨j, hj⟩ := h'.dirs b hb hbdir
  obtain ⟨slot, hslot, -, hmatch, -, rfl⟩ := h'.record_of_openIn hb hj hopen' (hflags' ▸ hflags)
  rw [pathBytes_inj] at hmatch
  have hfid : ((s' b).records slot).fid = n := (hid n c.free).trans (h'.used n (Nat.lt_succ_self n)).2.1
  obtain ⟨rfl, rfl⟩ | hdot := c.name_of_fid h hflags hb hbdir hj hslot hfid
  · exact hmatch
  · have hname : name = [46] := by
      rw [← hmatch, DirRecord.cName, hdot]
      rfl
    refine absurd ?_ (hnew 0 (by rw [c.list.uses, decide_eq_true (Nat.lt_of_lt_of_le (by decide) c.list.two)]))
    rw [DirRecord.cName, c.list.dot, hname]
    rfl

/-- The handle of the base directory. -/
def rootHandle : FILE := Arena.baseDir ⟨.invalid, 0, 0, false, 0⟩

/-- The base directory starts with no names but `.` and `..`. -/
theorem cName_tfsysInit (hblank : Blank memory) (hinit : Arena.tfsysInit memory = some s) (hlength : name.length ≠ 1)
    (hlength' : name.length ≠ 2) {slot : Nat} (huses : ((s 0).records slot).occupied = true) (tail : List UInt8) :
    ((s 0).records slot).cName tail ≠ name := by
  have hrecords : (s 0).records = addRecord (addRecord (memory 0).records 0 0 [46]) 1 0 [46, 46] := by
    rw [tfsysInit_eq hblank hinit, Arena.set_self]
  have hzero : ∀ x, ((memory 0).records x).occupied = decide (x < 0) := fun x => by
    rw [hblank.unused, decide_eq_false (Nat.not_lt_zero x)]
  rw [hrecords] at huses ⊢
  rw [addRecord_occupied (addRecord_occupied hzero), decide_eq_true_iff] at huses
  rintro rfl
  obtain rfl | rfl : slot = 0 ∨ slot = 1 := by omega
  · rw [addRecord_zero (by decide), addRecord_self] at hlength
    exact hlength rfl
  · rw [addRecord_self] at hlength'
    exact hlength' rfl

end Runs

end Akos.Tmpfs
