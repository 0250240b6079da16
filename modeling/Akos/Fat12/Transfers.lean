import Akos.Fat12.Steps

/-!
# Transfers along a chain

A read delivers the bytes from the place of the handle on, a write changes them and takes free clusters where the
chain is too short. What a write does is a relation between the disks before and after that composes, first over
the sectors of one call and then over calls.
-/

namespace Akos.Fat12

variable {d d' d'' : Floppy} {f f' : FILE} {cs new new' rest : List Nat} {c e i k n p q s : Nat} {dir : FloppyDir}
  {memory src : Nat → Byte} {buffer fuel : Nat} {length : BitVec 32}

/-! ### What a write does -/

/-- The bytes from `p` on were replaced by `n` new ones, the chain got the free clusters `new`, and nothing else of
the table or of the data changed. -/
structure Wrote (d d' : Floppy) (cs new : List Nat) (p n : Nat) (src : Nat → Byte) : Prop where
  chain : Chain d' (cs ++ new)
  free : freeClusters d = new ++ freeClusters d'
  inside : p + n ≤ 512 * (cs ++ new).length
  bytes : ∀ k < 512 * (cs ++ new).length, fileByte d' (cs ++ new) k =
    if p ≤ k ∧ k < p + n then src (k - p) else fileByte d (cs ++ new) k
  entries : ∀ c < 0xFF0, c ∉ cs ++ new → fatEntry d' c = fatEntry d c
  sectors : ∀ s, 14 ≤ s → (∀ c ∈ cs ++ new, s ≠ physSector c) → d'.sectors s = d.sectors s
  written : ∀ s ∈ d'.written, s ∈ d.written ∨ (∃ c ∈ cs ++ new, s = physSector c) ∨ (new ≠ [] ∧ s ≤ 13)

namespace Wrote

/-- Writing one piece after the other. -/
theorem trans {n' : Nat} {src' : Nat → Byte} (h : Wrote d d' cs new p n src)
    (h' : Wrote d' d'' (cs ++ new) new' (p + n) n' src') : Wrote d d'' cs (new ++ new') p (n + n')
      (fun k => if k < n then src k else src' (k - n)) where
  chain := List.append_assoc cs new new' ▸ h'.chain
  free := by rw [h.free, h'.free, List.append_assoc]
  inside := by
    rw [← List.append_assoc, ← Nat.add_assoc]
    exact h'.inside
  bytes k hk := by
    have hinside := h.inside
    rw [← List.append_assoc] at hk ⊢
    rw [h'.bytes k hk]
    by_cases hsecond : p + n ≤ k ∧ k < p + n + n'
    · rw [if_pos hsecond, if_pos (by omega), if_neg (by omega)]
      congr 1
      omega
    rw [if_neg hsecond]
    by_cases hold : k < 512 * (cs ++ new).length
    · have happend : ∀ d, fileByte d ((cs ++ new) ++ new') k = fileByte d (cs ++ new) k := by
        intro d
        rw [fileByte, fileByte, List.getD_append _ _ _ _ (Nat.div_lt_of_lt_mul hold)]
      rw [happend, happend, h.bytes k hold]
      by_cases hfirst : p ≤ k ∧ k < p + n
      · rw [if_pos hfirst, if_pos (by omega), if_pos (by omega)]
      · rw [if_neg hfirst, if_neg (by omega)]
    · have hpos := h.chain.length_pos
      -- the byte lies in a cluster that was still free
      have hi : k / 512 < ((cs ++ new) ++ new').length := Nat.div_lt_of_lt_mul hk
      have hmem := h'.chain.data _ (Chain.getD_mem hi)
      have hnot : ∀ c ∈ cs ++ new, physSector (((cs ++ new) ++ new').getD (k / 512) 0) ≠ physSector c := by
        intro c hc heq
        obtain ⟨j, hj, rfl⟩ := List.mem_iff_getElem.mp hc
        have hget : ((cs ++ new) ++ new').getD j 0 = (cs ++ new)[j] := by
          rw [List.getD_append _ _ _ _ hj, List.getD_eq_getElem _ _ hj]
        have hj' : j < ((cs ++ new) ++ new').length := by
          rw [List.length_append]
          omega
        have hindex := h'.chain.getD_injective hi hj' ((physSector_injective heq).trans hget.symm)
        omega
      have hsame := h.sectors _ (by unfold physSector; omega) hnot
      rw [if_neg (by omega), fileByte, fileByte, flpydskReadSector, flpydskReadSector, hsame]
  entries c hlt hc := by
    rw [← List.append_assoc] at hc
    rw [h'.entries c hlt hc, h.entries c hlt fun hmem => hc (List.mem_append_left _ hmem)]
  sectors s hs hc := by
    rw [← List.append_assoc] at hc
    rw [h'.sectors s hs hc, h.sectors s hs fun c hmem => hc c (List.mem_append_left _ hmem)]
  written s hs := by
    rcases h'.written s hs with hs | ⟨c, hc, rfl⟩ | ⟨hne, hs⟩
    · rcases h.written s hs with hs | ⟨c, hc, rfl⟩ | ⟨hne, hs⟩
      · exact .inl hs
      · exact .inr (.inl ⟨c, List.append_assoc cs new new' ▸ List.mem_append_left _ hc, rfl⟩)
      · exact .inr (.inr ⟨List.append_ne_nil_of_left_ne_nil hne _, hs⟩)
    · exact .inr (.inl ⟨c, List.append_assoc cs new new' ▸ hc, rfl⟩)
    · exact .inr (.inr ⟨List.append_ne_nil_of_right_ne_nil _ hne, hs⟩)

theorem congr (h : Wrote d d' cs new p n src) {src' : Nat → Byte} (hsrc : ∀ k < n, src k = src' k) :
    Wrote d d' cs new p n src' := by
  refine { h with bytes := fun k hk => ?_ }
  rw [h.bytes k hk]
  split
  · next hin => exact hsrc _ (by omega)
  · rfl

/-- Writing two pieces of memory that follow each other. -/
theorem trans_memory {n' : Nat} (h : Wrote d d' cs new p n (fun k => memory (buffer + k)))
    (h' : Wrote d' d'' (cs ++ new) new' (p + n) n' (fun k => memory (buffer + n + k))) :
    Wrote d d'' cs (new ++ new') p (n + n') (fun k => memory (buffer + k)) := by
  refine (h.trans h').congr fun k _ => ?_
  split
  · rfl
  · congr 1
    omega

/-- Nothing is written. -/
theorem refl (h : Chain d cs) (hp : p ≤ 512 * cs.length) (src : Nat → Byte) : Wrote d d cs [] p 0 src where
  chain := by rwa [List.append_nil]
  free := rfl
  inside := by rwa [List.append_nil]
  bytes k _ := by rw [if_neg (by omega)]
  entries _ _ _ := rfl
  sectors _ _ _ := rfl
  written s hs := .inl hs

/-- Bytes are written within the sector of place `p`. -/
theorem sector (h : Chain d cs) (hp : p < 512 * cs.length) (hn : p % 512 + n ≤ 512) (memory : Nat → Byte)
    (buffer : Nat) : Wrote d (flpydskWriteSector d (physSector (cs.getD (p / 512) 0))
      (memcpy (d.sectors (physSector (cs.getD (p / 512) 0))) (p % 512) memory buffer n)) cs [] p n
      (fun k => memory (buffer + k)) := by
  have hi : p / 512 < cs.length := Nat.div_lt_of_lt_mul hp
  have hdata := h.data _ (Chain.getD_mem hi)
  generalize hd' : flpydskWriteSector _ _ _ = d'
  have hsectors : ∀ s, s ≠ physSector (cs.getD (p / 512) 0) → d'.sectors s = d.sectors s := by
    intro s hs
    funext k
    rw [← hd']
    simp only [flpydskWriteSector, hs, false_and, if_false]
  have hentries : ∀ c < 0xFF0, fatEntry d' c = fatEntry d c := fun c hc =>
    fatEntry_of_sectors hc fun s hs => hsectors s (by unfold physSector; have := hdata.1; omega)
  refine ⟨?_, ?_, ?_, fun k hk => ?_, fun c hc _ => hentries c hc, fun s _ hs => ?_, fun s hs => ?_⟩
  · rw [List.append_nil]
    exact h.congr fun c hc => hentries c (Nat.lt_trans (h.data c hc).2 (by decide))
  · exact (freeClusters_congr fun c hc => hentries c (Nat.lt_trans hc.2 (by decide))).symm
  · rw [List.append_nil]
    omega
  · rw [List.append_nil] at hk ⊢
    have hk' : k / 512 < cs.length := Nat.div_lt_of_lt_mul hk
    have hmod : k % 512 < 512 := Nat.mod_lt k (by decide)
    unfold fileByte flpydskReadSector
    by_cases hsame : k / 512 = p / 512
    · have hplace : p % 512 ≤ k % 512 ∧ k % 512 < p % 512 + n ↔ p ≤ k ∧ k < p + n := by omega
      rw [hsame, ← hd']
      simp only [flpydskWriteSector, memcpy, sectorSize, hmod, and_true, if_true, hplace]
      split
      · next hin =>
        congr 2
        omega
      · rfl
    · have hne : physSector (cs.getD (k / 512) 0) ≠ physSector (cs.getD (p / 512) 0) := fun heq =>
        hsame (h.getD_injective hk' hi (physSector_injective heq))
      rw [hsectors _ hne, if_neg (by omega)]
  · exact hsectors s (hs _ (List.mem_append_left _ (Chain.getD_mem hi)))
  · rw [← hd', flpydskWriteSector] at hs
    rcases List.mem_cons.mp hs with rfl | hs
    · exact .inr (.inl ⟨_, List.mem_append_left _ (Chain.getD_mem hi), rfl⟩)
    · exact .inl hs

/-- A free cluster is taken. -/
theorem occupy (h : Chain d cs) (hfree : freeClusters d = e :: rest) (hp : p ≤ 512 * cs.length)
    (src : Nat → Byte) :
    Wrote d (fat12fsysOccupyFreeCluster d (cs.getD (cs.length - 1) 0)).2 cs [e] p 0 src := by
  have hpos := h.length_pos
  have hlast : cs.getD (cs.length - 1) 0 ∈ cs := Chain.getD_mem (by omega)
  have hmem : e ∈ freeClusters d := hfree ▸ List.mem_cons_self
  have he := (mem_freeClusters.mp hmem).1
  have hnew : e ∉ cs := fun hc => h.not_mem_freeClusters hc hmem
  have hocc : Occupies d (fat12fsysOccupyFreeCluster d (cs.getD (cs.length - 1) 0)).2
      (cs.getD (cs.length - 1) 0) e := by
    have hfirst := firstFreeEntry_of_cons hfree
    have hocc := occupies_of_lt (d := d) (hfirst ▸ Nat.lt_trans he.2 (by decide))
      (Nat.lt_trans (h.data _ hlast).2 (by decide)) fun heq => hnew (hfirst ▸ heq ▸ hlast)
    rwa [hfirst] at hocc
  generalize (fat12fsysOccupyFreeCluster d (cs.getD (cs.length - 1) 0)).2 = d' at hocc
  have hchain := hocc.chain_snoc h rfl hmem
  refine ⟨hchain, ?_, ?_, fun k hk => ?_, fun c _ hc => ?_, fun s hs _ => hocc.sectors s hs, fun s hs => ?_⟩
  · rw [hfree, hocc.freeClusters_eq hfree fun _ => h.entry_ne_zero hlast]
    rfl
  · rw [List.length_append]
    omega
  · have hdata := hchain.data _ (Chain.getD_mem (Nat.div_lt_of_lt_mul hk))
    rw [if_neg (by omega), fileByte, fileByte, flpydskReadSector, flpydskReadSector,
      hocc.sectors _ (by unfold physSector; have := hdata.1; omega)]
  · refine hocc.entries c (fun heq => hc ?_) fun _ heq => hc ?_
    · exact heq ▸ List.mem_append_right _ List.mem_cons_self
    · exact heq ▸ List.mem_append_left _ hlast
  · rcases hocc.written s hs with hs | hs
    · exact .inl hs
    · exact .inr (.inr ⟨List.cons_ne_nil _ _, hs⟩)

end Wrote

/-! ### Whole transfers -/

/-- Where a handle is left by a transfer: at its end, or where it stood in the last sector if the chain ends there. -/
def restPlace (cs : List Nat) (p n : Nat) : Nat :=
  if p + n < 512 * cs.length then p + n else max p (p + n - 512)

/-- The handle after a transfer. -/
structure Moved (f f' : FILE) (cs : List Nat) (p n : Nat) : Prop where
  same : f' = { f with currentCluster := f'.currentCluster, position := f'.position, eof := f'.eof }
  place : At f' cs (restPlace cs p n)
  eof : f'.eof = (f.eof || decide (512 * cs.length ≤ p + n))

namespace Moved

theorem refl (h : At f cs p) (hp : p < 512 * cs.length) : Moved f f cs p 0 := by
  refine ⟨rfl, ?_, ?_⟩
  · rw [restPlace, Nat.add_zero, if_pos hp]
    exact h
  · rw [Nat.add_zero, decide_eq_false (by omega), Bool.or_false]

theorem inSector (h : At f cs p) (hp : p < 512 * cs.length) (hshort : p % 512 + n < 512) :
    Moved f { f with position := BitVec.ofNat 32 (p % 512 + n) } cs p n := by
  have hdiv : (p + n) / 512 = p / 512 := by omega
  have hrest : (p + n) % 512 = p % 512 + n := by omega
  refine ⟨rfl, ?_, ?_⟩
  · rw [restPlace, if_pos (by omega)]
    refine ⟨?_, ?_⟩
    · rw [hdiv]
      exact h.cluster
    · rw [BitVec.toNat_ofNat, hrest]
      omega
  · rw [decide_eq_false (by omega), Bool.or_false]

theorem atEnd (h : At f cs p) (hend : p + n = 512 * cs.length) (hn : n ≤ 512) :
    Moved f { f with eof := true } cs p n := by
  refine ⟨rfl, ?_, ?_⟩
  · rw [restPlace, if_neg (by omega), Nat.max_eq_left (by omega)]
    exact ⟨h.cluster, h.position⟩
  · rw [decide_eq_true (by omega), Bool.or_true]

/-- A transfer of more than the rest of the sector, as the move to the next one and the move from there. -/
theorem next (h : Moved { f with currentCluster := c, position := 0#32 } f' cs (512 * (p / 512 + 1)) n)
    (hp : p / 512 + 1 < cs.length) (hn : q = 512 - p % 512 + n) : Moved f f' cs p q := by
  have hmod := Nat.mod_lt p (show 0 < 512 by decide)
  have hsum : p + q = 512 * (p / 512 + 1) + n := by omega
  refine ⟨h.same, ?_, ?_⟩
  · have hplace := h.place
    have hrest : restPlace cs (512 * (p / 512 + 1)) n = restPlace cs p q := by
      unfold restPlace
      rw [hsum]
      split
      · rfl
      · omega
    rwa [hrest] at hplace
  · rw [hsum]
    exact h.eof

end Moved

/-- Reads inside the chain deliver the bytes from the place of the handle on. -/
theorem rw_read (hcs : Chain d cs) (hat : At f cs p) (hp : p < 512 * cs.length) (hn : length.toNat = n)
    (hends : f.EndsAt ((p + n) % 512)) (hinside : p + n ≤ 512 * cs.length) :
    ∃ fuel f', fat12fsysRw .read fuel d f memory buffer length = ⟨d, f', memcpy memory buffer (fileByte d cs) p n, true⟩ ∧
      Moved f f' cs p n := by
  induction n using Nat.strong_induction_on generalizing f p memory buffer length with
  | _ n ih =>
  have hmod := Nat.mod_lt p (show 0 < 512 by decide)
  by_cases hzero : n = 0
  · subst hzero
    exact ⟨1, f, by rw [rw_zero hn, memcpy_zero], Moved.refl hat hp⟩
  by_cases hshort : p % 512 + n < 512
  · -- the read ends inside the sector
    refine ⟨1, _, ?_, Moved.inSector hat hp hshort⟩
    have hmodulo : (p + n) % 512 = p % 512 + length.toNat := by omega
    rw [hat.rw_inSector (by omega) (by omega) (hmodulo ▸ hends), hat.copySector_read, hn,
      Nat.min_eq_left (by omega)]
  have hlong : 512 - p % 512 ≤ length.toNat := by omega
  have hrest := hat.toNat_rest hlong
  by_cases hi : p / 512 + 1 < cs.length
  · -- the rest is read from the next cluster on
    have hstart : At { f with currentCluster := cs.getD (p / 512 + 1) 0, position := 0#32 } cs
        (512 * (p / 512 + 1)) := At.start rfl rfl
    have hplace : 512 * (p / 512 + 1) = p + (512 - p % 512) := by omega
    have hsum : 512 * (p / 512 + 1) + (n - (512 - p % 512)) = p + n := by omega
    have hread : ∃ fuel f', fat12fsysRw .read fuel d
        { f with currentCluster := cs.getD (p / 512 + 1) 0, position := 0#32 }
        (memcpy memory buffer (fileByte d cs) p (512 - p % 512)) (buffer + (512 - p % 512))
        (length - (512#32 - f.position)) = ⟨d, f', memcpy (memcpy memory buffer (fileByte d cs) p (512 - p % 512))
          (buffer + (512 - p % 512)) (fileByte d cs) (512 * (p / 512 + 1)) (n - (512 - p % 512)), true⟩ ∧
        Moved { f with currentCluster := cs.getD (p / 512 + 1) 0, position := 0#32 } f' cs
          (512 * (p / 512 + 1)) (n - (512 - p % 512)) :=
      ih (n - (512 - p % 512)) (by omega) hstart (by omega) (by omega) (by rw [hsum]; exact hends) (by omega)
    obtain ⟨fuel, f', heq, hmoved⟩ := hread
    refine ⟨fuel + 1, f', ?_, hmoved.next hi (by omega)⟩
    rw [hat.rw_toEnd hlong, hat.copySector_read, Nat.min_eq_right hlong]
    dsimp only
    rw [nextSector_link hat.cluster hcs hi, if_pos rfl, heq, hplace, memcpy_memcpy (by omega)]
  · -- the read ends with the chain
    refine ⟨1, { f with eof := true }, ?_, Moved.atEnd hat (by omega) (by omega)⟩
    rw [hat.rw_toEnd hlong, hat.copySector_read, Nat.min_eq_right hlong]
    dsimp only
    rw [nextSector_end hat.cluster hcs (by omega) fun hstop => FloppyDir.noConfusion hstop.2,
      if_neg Bool.false_ne_true, show 512 - p % 512 = n by omega]

/-- A write that is not done with its sector goes on in the next one of the chain, or in a free cluster. Without
one, it goes on in a cluster that has no sector on the disk. -/
theorem write_next (memory : Nat → BitVec 8) (buffer : Nat) (hcs : Chain d cs) (hat : At f cs p)
    (hp : p < 512 * cs.length)
    (hended : (endsInSector f length).1 = false) (hrest : 0 < (length - (512#32 - f.position)).toNat)
    (hpos : 0 < length.toNat) :
    ∃ d₁ c, (∀ fuel, fat12fsysRw .write (fuel + 1) d f memory buffer length =
        fat12fsysRw .write fuel d₁ { f with currentCluster := c, position := 0#32 } memory
          (buffer + (512 - p % 512)) (length - (512#32 - f.position))) ∧
      ((∃ new, Wrote d d₁ cs new p (min length.toNat (512 - p % 512)) (fun k => memory (buffer + k)) ∧
          c = (cs ++ new).getD (p / 512 + 1) 0 ∧ (cs ++ new).length = max cs.length (p / 512 + 2)) ∨
        (p / 512 + 1 = cs.length ∧ freeClusters d = [] ∧ 2849 ≤ c)) := by
  have hmod := Nat.mod_lt p (show 0 < 512 by decide)
  have hzero : length ≠ 0#32 := by
    rintro rfl
    exact Nat.lt_irrefl _ hpos
  have hsector := Wrote.sector hcs hp (n := min length.toNat (512 - p % 512)) (by omega) memory buffer
  have hcopy : copySector .write d f memory buffer length = _ := hat.copySector_write
  generalize flpydskWriteSector d _ _ = d₁ at hsector hcopy
  have hcs₁ : Chain d₁ cs := by
    have := hsector.chain
    rwa [List.append_nil] at this
  have hfree₁ : freeClusters d = freeClusters d₁ := hsector.free
  have hcluster : (endsInSector f length).2.currentCluster = cs.getD (p / 512) 0 :=
    endsInSector_cluster.trans hat.cluster
  have hstep : ∀ fuel d' c, nextSector .write d₁ (endsInSector f length).2 (length - (512#32 - f.position)) =
      (true, d', { (endsInSector f length).2 with currentCluster := c, position := 0#32 }) →
      fat12fsysRw .write (fuel + 1) d f memory buffer length =
        fat12fsysRw .write fuel d' { f with currentCluster := c, position := 0#32 } memory
          (buffer + (512 - p % 512)) (length - (512#32 - f.position)) := by
    intro fuel d' c hnext
    rw [endsInSector_file] at hnext
    have hbody : rwSector .write d f memory buffer length =
        (true, ⟨d', { f with currentCluster := c, position := 0#32 }, memory, true⟩,
          buffer + (512#32 - f.position).toNat, length - (512#32 - f.position)) := by
      unfold rwSector
      dsimp only
      rw [hended, if_neg Bool.false_ne_true, hcopy, hnext]
    rw [rw_eq hzero, hbody, if_pos rfl, hat.toNat_left]
  have hmore : length - (512#32 - f.position) > 0#32 := by
    rw [gt_iff_lt, BitVec.lt_def]
    exact hrest
  by_cases hi : p / 512 + 1 < cs.length
  · refine ⟨d₁, _, fun fuel => hstep fuel _ _ (nextSector_link hcluster hcs₁ hi), .inl ⟨[], hsector, ?_, ?_⟩⟩
    · rw [List.append_nil]
    · rw [List.append_nil]
      omega
  have hend : p / 512 + 1 = cs.length := by omega
  refine ⟨_, _, fun fuel => hstep fuel _ _ (nextSector_occupy hcluster hcs₁ hend hmore), ?_⟩
  cases hfree : freeClusters d₁ with
  | nil => exact .inr ⟨hend, hfree₁.trans hfree, le_firstFreeEntry hfree⟩
  | cons e rest =>
    have hle : p + min length.toNat (512 - p % 512) ≤ 512 * cs.length := by omega
    have hocc := Wrote.occupy hcs₁ hfree hle (fun k => memory (buffer + min length.toNat (512 - p % 512) + k))
    have hboth := hsector.trans_memory (by rwa [List.append_nil])
    rw [List.nil_append, Nat.add_zero] at hboth
    refine .inl ⟨[e], hboth, ?_, ?_⟩
    · rw [firstFreeEntry_of_cons hfree, hend, List.getD_append_right _ _ _ _ (Nat.le_refl _), Nat.sub_self]
      rfl
    · rw [List.length_append, List.length_singleton]
      omega

/-- Writes change the bytes from the place of the handle on, and take the clusters that the chain lacks. -/
theorem rw_write (hcs : Chain d cs) (hat : At f cs p) (hp : p < 512 * cs.length) (hn : length.toNat = n)
    (hends : f.EndsAt ((p + n) % 512)) (hroom : p + n ≤ 512 * (cs.length + (freeClusters d).length)) :
    ∃ fuel d' f' new, fat12fsysRw .write fuel d f memory buffer length = ⟨d', f', memory, true⟩ ∧
      Wrote d d' cs new p n (fun k => memory (buffer + k)) ∧
      (cs ++ new).length = max cs.length ((p + n + 511) / 512) ∧ Moved f f' (cs ++ new) p n := by
  induction n using Nat.strong_induction_on generalizing d f cs p buffer length with
  | _ n ih =>
  have hmod := Nat.mod_lt p (show 0 < 512 by decide)
  by_cases hzero : n = 0
  · subst hzero
    refine ⟨1, d, f, [], rw_zero hn, Wrote.refl hcs (by omega) _, ?_, ?_⟩
    · rw [List.append_nil]
      omega
    · rw [List.append_nil]
      exact Moved.refl hat hp
  have hsector := Wrote.sector hcs hp (n := min n (512 - p % 512)) (by omega) memory buffer
  have hcopy : copySector .write d f memory buffer length = _ := hat.copySector_write
  rw [hn] at hcopy
  by_cases hshort : p % 512 + n < 512
  · -- the write ends inside the sector
    rw [Nat.min_eq_left (by omega)] at hsector
    refine ⟨1, _, { f with position := BitVec.ofNat 32 (p % 512 + n) }, [], ?_, hsector, ?_, ?_⟩
    · have hmodulo : (p + n) % 512 = p % 512 + length.toNat := by omega
      rw [hat.rw_inSector (by omega) (by omega) (hmodulo ▸ hends), hcopy, hn, Nat.min_eq_left (by omega)]
    · rw [List.append_nil]
      omega
    · rw [List.append_nil]
      exact Moved.inSector hat hp hshort
  have hlong : 512 - p % 512 ≤ length.toNat := by omega
  have hrest := hat.toNat_rest hlong
  rw [Nat.min_eq_right (by omega)] at hsector
  have hcs₁ := hsector.chain
  rw [List.append_nil] at hcs₁
  have hplace : 512 * (p / 512 + 1) = p + (512 - p % 512) := by omega
  have hsum : 512 * (p / 512 + 1) + (n - (512 - p % 512)) = p + n := by omega
  by_cases hdone : n = 512 - p % 512
  · rw [← hdone] at hsector hcs₁
    rw [Nat.min_eq_right (by omega), ← hdone] at hcopy
    by_cases hi : p / 512 + 1 < cs.length
    · -- the write ends with the sector, and the handle goes to the next one
      have hstart : At { f with currentCluster := cs.getD (p / 512 + 1) 0, position := 0#32 } cs
          (512 * (p / 512 + 1)) := At.start rfl rfl
      refine ⟨2, _, { f with currentCluster := cs.getD (p / 512 + 1) 0, position := 0#32 }, [], ?_, hsector, ?_, ?_⟩
      · rw [hat.rw_toEnd hlong, hcopy]
        dsimp only
        rw [nextSector_link hat.cluster hcs₁ hi, if_pos rfl, rw_zero (by omega)]
      · rw [List.append_nil]
        omega
      · rw [List.append_nil]
        exact (Moved.refl hstart (by omega)).next hi hdone
    · -- the write ends with the chain
      have hnone : ¬ (length - (512#32 - f.position) > 0#32 ∧ FloppyDir.write = .write) := by
        rw [gt_iff_lt, BitVec.lt_def, hrest, hn, ← hdone, Nat.sub_self]
        simp
      refine ⟨1, _, { f with eof := true }, [], ?_, hsector, ?_, ?_⟩
      · rw [hat.rw_toEnd hlong, hcopy]
        dsimp only
        rw [nextSector_end hat.cluster hcs₁ (by omega) hnone, if_neg Bool.false_ne_true]
      · rw [List.append_nil]
        omega
      · rw [List.append_nil]
        exact Moved.atEnd hat (by omega) (by omega)
  · -- the rest is written from the next cluster on
    have hended : (endsInSector f length).1 = false := by
      unfold endsInSector
      rw [if_neg]
      rw [BitVec.lt_def, hat.toNat_left]
      omega
    obtain ⟨d₁, c, hstep, hnext⟩ := write_next memory buffer hcs hat hp hended (by omega) (by omega)
    rcases hnext with ⟨new, hwrote, hc, hcount⟩ | ⟨hend, hfree, -⟩
    · rw [hn, Nat.min_eq_right (by omega)] at hwrote
      have hfree := congrArg List.length hwrote.free
      rw [List.length_append] at hfree
      rw [List.length_append] at hcount
      have hstart : At { f with currentCluster := c, position := 0#32 } (cs ++ new) (512 * (p / 512 + 1)) :=
        At.start hc rfl
      have hwrite : ∃ fuel d' f' new', fat12fsysRw .write fuel d₁
          { f with currentCluster := c, position := 0#32 } memory (buffer + (512 - p % 512))
          (length - (512#32 - f.position)) = ⟨d', f', memory, true⟩ ∧
          Wrote d₁ d' (cs ++ new) new' (512 * (p / 512 + 1)) (n - (512 - p % 512))
            (fun k => memory (buffer + (512 - p % 512) + k)) ∧
          (cs ++ new ++ new').length
            = max (cs ++ new).length ((512 * (p / 512 + 1) + (n - (512 - p % 512)) + 511) / 512) ∧
          Moved { f with currentCluster := c, position := 0#32 } f' (cs ++ new ++ new')
            (512 * (p / 512 + 1)) (n - (512 - p % 512)) :=
        ih (n - (512 - p % 512)) (by omega) hwrote.chain hstart (by rw [List.length_append]; omega) (by omega)
          (by rw [hsum]; exact hends) (by rw [List.length_append]; omega)
      obtain ⟨fuel, d', f', new', heq, hwrote', hcount', hmoved⟩ := hwrite
      rw [List.append_assoc] at hcount' hmoved
      have hlength : (cs ++ new).length = cs.length + new.length := List.length_append
      have hlength' : (cs ++ (new ++ new')).length = cs.length + (new ++ new').length := List.length_append
      refine ⟨fuel + 1, d', f', new ++ new', (hstep fuel).trans heq, ?_, by omega, hmoved.next (by omega) (by omega)⟩
      have hboth := hwrote.trans_memory (hplace ▸ hwrote')
      rwa [show 512 - p % 512 + (n - (512 - p % 512)) = n by omega] at hboth
    · rw [hfree, List.length_nil] at hroom
      omega

end Akos.Fat12
