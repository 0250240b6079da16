import Akos.Fat12.RootListing

/-!
# Requests for files of the root directory

Files that are opened, used and left, one after the other, are served as the list of names and bytes says, as long as
the clusters suffice and no write begins right behind a full last sector.
-/

namespace Akos.Fat12

variable {d d' : Floppy} {f f' : FILE} {node : Node} {entries : List (RootFile × Node)} {e e' : RootFile × Node}
  {a : Listing} {new : List Nat} {b w : List Byte} {k n p : Nat} {name : List Byte} {slot : Nat × Nat}
  {length : BitVec 32}

/-! ### Bytes -/

theorem length_overwrite (hp : p ≤ b.length) : (overwrite b p w).length = max b.length (p + w.length) := by
  rw [overwrite, List.length_append, List.length_append, List.length_take, List.length_drop]
  omega

theorem getElem_overwrite (hp : p ≤ b.length) (hk : k < (overwrite b p w).length) : (overwrite b p w)[k] =
    if p ≤ k ∧ k < p + w.length then w.getD (k - p) 0#8 else b.getD k 0#8 := by
  have htake : (b.take p).length = p := List.length_take_of_le hp
  rw [length_overwrite hp] at hk
  simp only [overwrite, List.getElem_append, List.length_append, htake]
  split
  · next hlow =>
    split
    · next hfront =>
      rw [if_neg (by omega), List.getElem_take, List.getD_eq_getElem]
    · rw [if_pos (by omega), List.getD_eq_getElem]
  · rw [if_neg (by omega), List.getElem_drop, List.getD_eq_getElem _ _ (by omega)]
    congr 1
    omega

/-- Writing one piece behind the other. -/
theorem overwrite_append (hp : p ≤ b.length) (w w' : List Byte) :
    overwrite (overwrite b p w) (p + w.length) w' = overwrite b p (w ++ w') := by
  have hlength : (b.take p ++ w).length = p + w.length := by rw [List.length_append, List.length_take_of_le hp]
  rw [overwrite, overwrite, overwrite, List.take_left' hlength, List.drop_append, hlength, List.drop_drop,
    List.drop_eq_nil_of_le (by omega), List.nil_append, List.length_append, List.append_assoc (b.take p), Nat.add_assoc]
  congr 2
  omega

theorem length_filled (r : ReadCall) (memory : Nat → Byte) : (r.filled memory).length = r.length.toNat := by
  rw [ReadCall.filled, List.length_map, List.length_range]

theorem length_sent (calls : List ReadCall) : (sent calls).length = total calls := by
  induction calls with
  | nil => rfl
  | cons r calls ih => rw [sent, List.flatMap_cons, List.length_append, length_filled, ← sent, ih, total_cons]

/-! ### Writing -/

/-- A handle that got to place `p` of the file's bytes. -/
structure Session (f : FILE) (e : RootFile × Node) (p : Nat) : Prop where
  place : p < 512 * clustersOf e.2.bytes.length → At f e.1.clusters p
  inside : p ≤ e.2.bytes.length
  type : f.flags = .file
  parent : f.parentCluster = (e.1.slot.1 : Int) - 31
  usable : Usable f.name
  name : toDosFileName f.name = some e.2.name
  position : f.absPosition.toNat = p
  length : f.fileLength.toNat = e.2.bytes.length

theorem Session.writer (hs : Session f e p) (hclusters : e.1.clusters.length = clustersOf e.2.bytes.length)
    (hp : p < 512 * clustersOf e.2.bytes.length) : Writer f e.1 p where
  place := hs.place hp
  inside := by rwa [hclusters]
  type := hs.type
  parent := hs.parent
  covered := by
    rw [hs.position, hs.length]
    exact .inr ⟨Nat.le_refl p, hs.inside⟩

/-- The part of a write in front of its transfer leaves the other slots alone, and the entry and the handle with the
length that the file will have. -/
structure Extended (d d' : Floppy) (f' : FILE) (e : RootFile × Node) (n : Nat) : Prop where
  others : ∀ slot ∈ slotsOf rootSectors, slot ≠ e.1.slot → ¬ Changed d d' slot
  size : (entryFileSize (d'.sectors e.1.slot.1) e.1.slot.2).toNat = max e.2.bytes.length n
  length : f'.fileLength.toNat = max e.2.bytes.length n
  position : f'.absPosition.toNat = n

theorem not_changed_refl (d : Floppy) (slot : Nat × Nat) : ¬ Changed d d slot := fun h => by
  obtain ⟨k, -, hk⟩ := h
  exact hk rfl

theorem not_changed_setEntryFileSize {s i : Nat} {v : BitVec 32} (hne : slot ≠ (s, i)) :
    ¬ Changed d (flpydskWriteSector d s (setEntryFileSize (d.sectors s) i v)) slot := by
  rintro ⟨k, hk, hbyte⟩
  refine hbyte ?_
  by_cases hs : slot.1 = s
  · have hi : slot.2 ≠ i := fun hi => hne (Prod.ext hs hi)
    rw [flpydskWriteSector]
    dsimp only
    split
    · rw [setEntryFileSize_of_ne hi hk, hs]
    · rfl
  · rw [flpydskWriteSector_of_ne hs]

theorem Shown.extended (h : Shown d entries a) (he : e ∈ entries) (hfile : e.2.isDirectory = false)
    (hs : Session f e p) (hshort : p + length.toNat < 2 ^ 31) :
    Extended d (extendFile d f length).1 (extendFile d f length).2 e (p + length.toNat) := by
  have hsum : (f.absPosition + length).toNat = p + length.toNat := by
    rw [BitVec.toNat_add, hs.position, Nat.mod_eq_of_lt (by omega)]
  have hlength := hs.length
  have hsize := ((h.each e he).stored hfile).size
  have hnumber := (slot_bounds (h.laidOut he).slot).2.2
  unfold extendFile
  rw [if_pos (by rw [hs.type]; decide)]
  dsimp only
  split
  · next hgt =>
    rw [gt_iff_lt, BitVec.lt_def, hsum] at hgt
    have hsector : (f.parentCluster + 31).toNat = e.1.slot.1 := by
      rw [hs.parent]
      omega
    have hupdate : fat12fsysUpdateFlen d
        { f with absPosition := f.absPosition + length, fileLength := f.absPosition + length }
        (f.absPosition + length) = flpydskWriteSector d e.1.slot.1
            (setEntryFileSize (d.sectors e.1.slot.1) e.1.slot.2 (f.absPosition + length)) := by
      rw [fat12fsysUpdateFlen]
      dsimp only
      simp only [hs.name, hsector, flpydskReadSector, h.findEntry_eq hs.usable hs.name he]
    refine ⟨fun slot _ hne => ?_, ?_, ?_, hsum⟩
    · rw [hupdate]
      exact not_changed_setEntryFileSize hne
    · have hsame : SameSector ((flpydskWriteSector d e.1.slot.1 (setEntryFileSize (d.sectors e.1.slot.1) e.1.slot.2
          (f.absPosition + length))).sectors e.1.slot.1) (setEntryFileSize (d.sectors e.1.slot.1) e.1.slot.2
          (f.absPosition + length)) := fun k hk => flpydskWriteSector_self hk
      rw [hupdate, hsame.entryFileSize_eq hnumber, entryFileSize_setEntryFileSize, hsum]
      omega
    · dsimp only
      omega
  · next hle =>
    rw [gt_iff_lt, BitVec.lt_def, hsum] at hle
    refine ⟨fun slot _ _ => not_changed_refl d slot, ?_, ?_, hsum⟩
    · rw [hsize]
      omega
    · dsimp only
      omega

/-- The entry of a list after a write to one of them. -/
def rewritten (e : RootFile × Node) (new : List Nat) (b : List Byte) (x : RootFile × Node) : RootFile × Node :=
  (x.1.grow e.1.slot new, if x.2.name = e.2.name then { x.2 with bytes := b } else x.2)

theorem rewritten_self :
    rewritten e new b e = ({ e.1 with clusters := e.1.clusters ++ new }, { e.2 with bytes := b }) := by
  rw [rewritten, RootFile.grow, if_pos rfl, if_pos rfl]

theorem rewritten_slot : (rewritten e new b e').1.slot = e'.1.slot := by
  rw [rewritten, RootFile.grow]
  split <;> rfl

theorem rewritten_name : (rewritten e new b e').2.name = e'.2.name := by
  rw [rewritten]
  dsimp only
  split <;> rfl

theorem clustersOf_max (n p : Nat) : clustersOf (max n p) = max (clustersOf n) ((p + 511) / 512) := by
  unfold clustersOf
  omega

namespace Shown

variable (h : Shown d entries a) (he : e ∈ entries)
include h he

theorem rewritten_of_ne (he' : e' ∈ entries) (hne : e' ≠ e) : rewritten e new b e' = e' := by
  have hslot : e'.1.slot ≠ e.1.slot := fun heq => hne (h.eq_of_slot he' he heq)
  have hname : e'.2.name ≠ e.2.name := fun heq => hne (h.eq_of_name he' he heq)
  rw [rewritten, RootFile.grow, if_neg hslot, if_neg hname]

theorem clusters_eq (hfile : e.2.isDirectory = false) : e.1.clusters.length = clustersOf e.2.bytes.length :=
  ((h.each e he).stored hfile).clusters

variable {src : Nat → Byte} (hfile : e.2.isDirectory = false) (hs : Session f e p)
  (hwritten : Written d d' f f' e.1 new p length src) (hw : w.length = length.toNat)
include hfile hs hwritten hw

theorem clusters_written : (e.1.clusters ++ new).length = clustersOf (overwrite e.2.bytes p w).length := by
  rw [hwritten.clusters, h.clusters_eq he hfile, length_overwrite hs.inside, hw, clustersOf_max]

/-- The handle is behind what was written. -/
theorem session_written (hshort : p + length.toNat < 2 ^ 31) :
    Session f' (rewritten e new (overwrite e.2.bytes p w) e) (p + length.toNat) := by
  have hext := h.extended he hfile hs hshort
  have hclusters := h.clusters_written he hfile hs hwritten hw
  have hlength := length_overwrite (w := w) hs.inside
  have hsame := hwritten.moved.same
  rw [extendFile_same] at hsame
  rw [rewritten_self]
  refine ⟨fun hin => ?_, ?_, ?_, ?_, ?_, ?_, ?_, ?_⟩
  · have hplace := hwritten.moved.place
    rw [← hclusters] at hin
    rwa [restPlace, if_pos hin] at hplace
  · dsimp only
    rw [hlength, hw]
    exact Nat.le_max_right _ _
  · rw [hsame]
    exact hs.type
  · rw [hsame]
    exact hs.parent
  · rw [hsame]
    exact hs.usable
  · rw [hsame]
    exact hs.name
  · rw [hsame]
    exact hext.position
  · rw [hsame]
    dsimp only
    rw [hext.length, hlength, hw]

variable (hp : p < 512 * clustersOf e.2.bytes.length) (hsrc : ∀ k < length.toNat, src k = w.getD k 0#8)
include hp hsrc

/-- The file that was written to. -/
theorem shows_written (hshort : p + length.toNat < 2 ^ 31) :
    Shows d' { e.1 with clusters := e.1.clusters ++ new } { e.2 with bytes := overwrite e.2.bytes p w } := by
  have hwriter := hs.writer (h.clusters_eq he hfile) hp
  have hslot := (h.laidOut he).slot
  have hmem : e.1 ∈ entries.map Prod.fst := List.mem_map_of_mem he
  have hsame := hwritten.sameSlots hwriter h.laid hmem
  have hshows := h.each e he
  have hstored := hshows.stored hfile
  have hext := h.extended he hfile hs hshort
  have hclusters := h.clusters_written he hfile hs hwritten hw
  have hlength := length_overwrite (w := w) hs.inside
  have hattrib := hsame.entryAttrib_eq hslot
  refine ⟨(hsame.entryName_eq hslot).trans hshows.name, ?_, fun _ => ⟨?_, hwritten.wrote.chain, ?_, hclusters, ?_,
    fun k hk => ?_⟩⟩
  · rw [← hshows.type, IsDirectory, IsDirectory, hattrib]
  · rw [IsDirectory, hattrib]
    exact hstored.type
  · rw [hsame.entryFirstCluster_eq hslot, hstored.first, List.getD_append _ _ _ _ hstored.chain.length_pos]
  · rw [hwritten.root_sector hslot, hext.size, hlength, hw]
  · rw [hlength] at hk
    have hold := h.clusters_eq he hfile
    have hinside : k < 512 * (e.1.clusters ++ new).length := by
      rw [hclusters, hlength, clustersOf]
      omega
    rw [hwritten.wrote.bytes k hinside, getElem_overwrite hs.inside, hw]
    split
    · next hin => exact hsrc _ (by omega)
    · next hout =>
      have hkold : k < e.2.bytes.length := by
        have := hs.inside
        omega
      have hkchain : k < 512 * e.1.clusters.length := by
        rw [hold, clustersOf]
        omega
      rw [fileByte, List.getD_append _ _ _ _ (Nat.div_lt_of_lt_mul hkchain), ← fileByte,
        (hwriter.sameButSizes (h.laidOut he)).fileByte_eq hstored.chain hkchain, hstored.bytes k hkold,
        List.getD_eq_getElem _ _ hkold]

/-- After the write the list has the new bytes. -/
theorem shown_written (hshort : p + length.toNat < 2 ^ 31) :
    Shown d' (entries.map (rewritten e new (overwrite e.2.bytes p w))) (a.put e.2 (overwrite e.2.bytes p w)) := by
  have hwriter := hs.writer (h.clusters_eq he hfile) hp
  have hmem : e.1 ∈ entries.map Prod.fst := List.mem_map_of_mem he
  have hsame := hwritten.sameSlots hwriter h.laid hmem
  have hext := h.extended he hfile hs hshort
  refine ⟨?_, ?_, fun x' hx' => ?_, ?_, ?_, ?_⟩
  · have hlaid := hwritten.laid hwriter h.laid hmem
    rw [List.map_map] at hlaid ⊢
    exact hlaid
  · rw [Listing.put, ← h.nodes, List.map_map, List.map_map]
    rfl
  · obtain ⟨x, hx, rfl⟩ := List.mem_map.mp hx'
    by_cases hne : x = e
    · rw [hne, rewritten_self]
      exact h.shows_written he hfile hs hwritten hw hp hsrc hshort
    · have hslot : x.1.slot ≠ e.1.slot := fun heq => hne (h.eq_of_slot hx he heq)
      have hxmem : x.1 ∈ entries.map Prod.fst := List.mem_map_of_mem hx
      have hapart : e.1.Apart x.1 := (h.laid.eq_or_apart hmem hxmem).resolve_left fun heq => hslot (by rw [heq])
      rw [h.rewritten_of_ne he hx hne]
      refine (h.each x hx).of_not_changed ?_ (hwritten.chain_of_apart hwriter h.laid hmem hxmem hapart) fun k hk =>
        hwritten.fileByte_of_apart hwriter h.laid hmem hxmem hapart hk
      have hxslot := (h.laidOut hx).slot
      rintro ⟨k, hk, hbyte⟩
      refine hext.others _ hxslot hslot ⟨k, hk, ?_⟩
      rwa [hwritten.root_sector hxslot] at hbyte
  · rw [List.map_map]
    have hslots : ((fun x => x.1.slot) ∘ rewritten e new (overwrite e.2.bytes p w)) = fun x => x.1.slot :=
      funext fun x => rewritten_slot
    rw [hslots]
    exact h.slots
  · refine List.pairwise_map.mpr (h.names.imp fun {x y} hne => ?_)
    rwa [rewritten_name, rewritten_name]
  · have hcount := congrArg List.length (hwritten.freeClusters_eq hwriter h.laid hmem)
    have hclusters := h.clusters_written he hfile hs hwritten hw
    rw [List.length_append, h.free] at hcount
    rw [List.length_append, h.clusters_eq he hfile] at hclusters
    rw [Listing.put]
    dsimp only
    omega

end Shown

theorem Listing.put_self (h : ∀ node' ∈ a.nodes, node'.name = node.name → node' = node) :
    a.put node node.bytes = a := by
  have hnodes : (a.put node node.bytes).nodes = a.nodes.map id := by
    refine List.map_congr_left fun node' hnode' => ?_
    split
    · next hname => rw [h node' hnode' hname, id]
    · rfl
  have hfree : (a.put node node.bytes).free = a.free := by rw [Listing.put, Nat.sub_self, Nat.sub_zero]
  have heq : a.put node node.bytes = ⟨(a.put node node.bytes).nodes, (a.put node node.bytes).free⟩ := rfl
  rw [heq, hnodes, hfree, List.map_id]

theorem clustersOf_le (h : n ≤ p) : clustersOf n ≤ clustersOf p := by
  unfold clustersOf
  omega

theorem Listing.put_put (h : node.bytes.length ≤ b.length) (h' : b.length ≤ w.length) :
    (a.put node b).put { node with bytes := b } w = a.put node w := by
  have hle := clustersOf_le h
  have hle' := clustersOf_le h'
  rw [Listing.put, Listing.put, Listing.put, Listing.mk.injEq]
  dsimp only
  rw [List.map_map]
  refine ⟨List.map_congr_left fun node' _ => ?_, by omega⟩
  rw [Function.comp_apply]
  by_cases hname : node'.name = node.name
  · rw [if_pos hname, if_pos hname, if_pos hname]
  · rw [if_neg hname, if_neg hname]

theorem filled_getD {r : ReadCall} {memory : Nat → Byte} (hk : k < r.length.toNat) :
    memory (r.buffer + k) = (r.filled memory).getD k 0#8 := by
  rw [ReadCall.filled, List.getD_eq_getElem _ _ (by rw [List.length_map, List.length_range]; exact hk),
    List.getElem_map, List.getElem_range]

theorem filled_of_zero {r : ReadCall} (hzero : r.length.toNat = 0) (memory : Nat → Byte) : r.filled memory = [] := by
  rw [← List.length_eq_zero_iff, length_filled, hzero]

/-- Writing nothing does nothing. -/
theorem Session.write_zero (hs : Session f e p) (hzero : length.toNat = 0) (fuel : Nat) (d : Floppy)
    (memory : Nat → Byte) (buffer : Nat) :
    fat12fsysWrite (fuel + 1) d f memory buffer length = ⟨d, f, memory, true⟩ := by
  obtain rfl : length = 0#32 := BitVec.eq_of_toNat_eq hzero
  have hposition := hs.position
  have hlength := hs.length
  have hinside := hs.inside
  have hextend : extendFile d f 0#32 = (d, f) := by
    unfold extendFile
    rw [if_pos (by rw [hs.type]; decide), BitVec.add_zero]
    dsimp only
    rw [if_neg (by rw [gt_iff_lt, BitVec.lt_def]; omega)]
  rw [write_eq, hextend]
  exact rw_zero rfl

theorem Clear.rest {r : ReadCall} (h : Clear n p (r :: calls)) :
    Clear (max n (p + r.length.toNat)) (p + r.length.toNat) calls := h.2

theorem Shown.file_eq (h : Shown d entries a) (he : e ∈ entries) :
    ∀ node' ∈ a.nodes, node'.name = e.2.name → node' = e.2 := by
  intro node' hnode' hname
  rw [← h.nodes] at hnode'
  obtain ⟨e', he', rfl⟩ := List.mem_map.mp hnode'
  rw [h.eq_of_name he' he hname]

/-- Calls that write one behind the other replace the bytes from the place of the handle on. -/
theorem Shown.writeAll (h : Shown d entries a) (he : e ∈ entries) (hfile : e.2.isDirectory = false)
    (hs : Session f e p) (calls : List ReadCall) (hclear : Clear e.2.bytes.length p calls)
    (hroom : clustersOf (max e.2.bytes.length (p + total calls)) ≤ clustersOf e.2.bytes.length + a.free) :
    ∃ d', StepBound.Gives (fun fuel => Fat12.writeAll fuel d f calls) d' ∧
      Represents d' (a.put e.2 (overwrite e.2.bytes p (sent calls))) := by
  induction calls generalizing d f entries a e p with
  | nil =>
    refine ⟨d, ⟨0, fun _ _ => rfl⟩, entries, ?_⟩
    have hsame : overwrite e.2.bytes p (sent []) = e.2.bytes := by
      rw [overwrite, show sent [] = [] from rfl, List.append_nil, List.length_nil, Nat.add_zero, List.take_append_drop]
    rw [hsame, Listing.put_self (h.file_eq he)]
    exact h
  | cons r calls ih =>
    rw [total_cons] at hroom
    have hsent : sent (r :: calls) = r.filled r.memory ++ sent calls := List.flatMap_cons
    by_cases hzero : r.length.toNat = 0
    · have hrest := hclear.rest
      rw [hzero, Nat.add_zero, Nat.max_eq_left hs.inside] at hrest
      obtain ⟨d', ⟨fuel, hgives⟩, hrepresents⟩ := ih h he hfile hs hrest (by rwa [hzero, Nat.zero_add] at hroom)
      refine ⟨d', ⟨fuel + 1, fun fuel' hle => ?_⟩, ?_⟩
      · obtain ⟨more, rfl⟩ := Nat.exists_eq_add_of_le' hle
        dsimp only
        rw [Fat12.writeAll, ← Nat.add_assoc, hs.write_zero hzero, if_pos rfl]
        exact hgives _ (by omega)
      · rwa [hsent, filled_of_zero hzero, List.nil_append]
    · have hp := hclear.1.resolve_left hzero
      have hclusters := h.clusters_eq he hfile
      have hcount := freeClusters_length_le d
      have hchain := (h.laidOut he).chain.length_le
      rw [h.free] at hcount
      have hplace : p + r.length.toNat ≤ 512 * (e.1.clusters.length + (freeClusters d).length) := by
        rw [hclusters, h.free]
        rw [clustersOf_max] at hroom
        omega
      have hshort : p + r.length.toNat < 2 ^ 31 := by
        rw [h.free] at hplace
        omega
      obtain ⟨d', f', new, ⟨fuel, hreturns⟩, hwritten⟩ :=
        (hs.writer hclusters hp).write (h.laidOut he) r.memory r.buffer hplace
      have hw := length_filled r r.memory
      have hshown := h.shown_written he hfile hs hwritten hw hp (fun k hk => filled_getD hk) hshort
      have hsession := h.session_written he hfile hs hwritten hw hshort
      have hlength := length_overwrite (w := r.filled r.memory) hs.inside
      have hmem := List.mem_map_of_mem (f := rewritten e new (overwrite e.2.bytes p (r.filled r.memory))) he
      have hfile' : (rewritten e new (overwrite e.2.bytes p (r.filled r.memory)) e).2.isDirectory = false := by
        rw [rewritten_self]
        exact hfile
      have hrest := hclear.rest
      have hmost : max (max e.2.bytes.length (p + r.length.toNat)) (p + r.length.toNat + total calls) =
          max e.2.bytes.length (p + (r.length.toNat + total calls)) := by omega
      have hmore := clustersOf_le (Nat.le_max_left e.2.bytes.length (p + r.length.toNat))
      rw [rewritten_self] at hsession hmem hfile'
      obtain ⟨d'', ⟨fuel', hgives⟩, hrepresents⟩ := ih hshown hmem hfile' hsession (by rwa [hlength, hw]) (by
        dsimp only [Listing.put]
        rw [hlength, hw, hmost]
        omega)
      refine ⟨d'', ⟨max fuel fuel', fun fuel'' hle => ?_⟩, ?_⟩
      · dsimp only
        rw [Fat12.writeAll, hreturns fuel'' ((le_max_left fuel fuel').trans hle), if_pos rfl]
        exact hgives fuel'' ((le_max_right fuel fuel').trans hle)
      · rw [Listing.put_put, ← hw, overwrite_append hs.inside, ← hsent] at hrepresents
        · exact hrepresents
        · rw [hlength]
          exact Nat.le_max_left _ _
        · have hinside : p + (r.filled r.memory).length ≤ (overwrite e.2.bytes p (r.filled r.memory)).length := by
            rw [hlength]
            exact Nat.le_max_right _ _
          dsimp only
          rw [← hw, length_overwrite hinside]
          exact Nat.le_max_left _ _

/-! ### Requests -/

theorem Shown.session_of_open (h : Shown d entries a) (husable : Usable name) (he : e ∈ entries)
    (hfile : e.2.isDirectory = false) (hdos : toDosFileName name = some e.2.name) (junk : FILE) :
    Session (fat12fsysRootOpen d junk name) e 0 := by
  have hstored := (h.each e he).stored hfile
  rw [h.rootOpen_eq husable hdos he]
  exact {
    place _ := ⟨hstored.first, rfl⟩
    inside := Nat.zero_le _
    type := if_neg hstored.type
    parent := rfl
    usable := husable
    name := hdos
    position := rfl
    length := hstored.size }

theorem Represents.serve (h : Represents d a) (r : Request) (hpermits : a.Permits r) (junks : Nat → FILE) :
    ∃ d', StepBound.Gives (fun fuel => r.run fuel d junks) ((a.serve r).1, d') ∧ Represents d' (a.serve r).2 := by
  obtain ⟨entries, h⟩ := h
  cases r with
  | create name flags =>
    have hrun : (fun fuel => (Request.create name flags).run fuel d junks) = fun fuel =>
        (fat12fsysCreate fuel d (junks 0) { junks 0 with flags := .directory, name := [backslash] } name flags).map
          fun d => ([], d) := rfl
    obtain ⟨d', hgives, hrepresents⟩ := h.create (f := { junks 0 with flags := .directory, name := [backslash] })
      hpermits ⟨rfl, .inl rfl⟩ (junks 0)
    rw [hrun]
    exact ⟨d', hgives.map _, hrepresents⟩
  | write name calls =>
    obtain ⟨husable, hpermits⟩ := hpermits
    have hrun : (fun fuel => (Request.write name calls).run fuel d junks) = fun fuel =>
        if (fat12fsysRootOpen d (junks 0) name).flags = .file then
          (Fat12.writeAll fuel d (fat12fsysRootOpen d (junks 0) name) calls).map fun d => ([], d)
        else some ([], d) := by
      funext fuel
      rw [Request.run, open_single husable.ne_nil husable.path, Option.bind_eq_bind, Option.bind_some]
    rw [hrun]
    obtain ⟨hnone, hflags⟩ | ⟨e, he, hsome, hfile, hdos⟩ := h.file?_cases husable
    · simp only [if_neg (hflags (junks 0)), Listing.serve, hnone, Option.elim_none]
      exact ⟨d, StepBound.gives_some _, entries, h⟩
    · have hsession := h.session_of_open husable he hfile hdos (junks 0)
      obtain ⟨hclear, hroom⟩ := hpermits e.2 hsome
      obtain ⟨d', hgives, hrepresents⟩ := h.writeAll he hfile hsession calls hclear (by rwa [Nat.zero_add])
      simp only [if_pos hsession.type, Listing.serve, hsome, Option.elim_some]
      exact ⟨d', hgives.map _, hrepresents⟩
  | read name calls =>
    obtain ⟨husable, hpermits⟩ := hpermits
    have hrun : (fun fuel => (Request.read name calls).run fuel d junks) = fun fuel =>
        if (fat12fsysRootOpen d (junks 0) name).flags = .file then
          (Fat12.readAll fuel d (fat12fsysRootOpen d (junks 0) name) calls).map fun parts => (parts.flatten, d)
        else some ([], d) := by
      funext fuel
      rw [Request.run, open_single husable.ne_nil husable.path, Option.bind_eq_bind, Option.bind_some]
    rw [hrun]
    refine ⟨d, ?_, entries, h⟩
    obtain ⟨hnone, hflags⟩ | ⟨e, he, hsome, hfile, hdos⟩ := h.file?_cases husable
    · simp only [if_neg (hflags (junks 0)), Listing.serve, hnone, Option.elim_none]
      exact StepBound.gives_some _
    · have hsession := h.session_of_open husable he hfile hdos (junks 0)
      have hstored := (h.each e he).stored hfile
      have hfilled : FilledIn d (fat12fsysRootOpen d (junks 0) name) e.1.slot.1 e.1.slot.2 := by
        rw [h.rootOpen_eq husable hdos he]
        exact filledIn_fileOfEntry _ _ _ _
      obtain ⟨fuel, parts, hparts, hflatten⟩ := (reading_of_matches hstored hfilled).readAll hstored calls
        (by rw [Nat.zero_add]; exact hpermits e.2 hsome)
      have hgives : StepBound.Gives (fun fuel => Fat12.readAll fuel d (fat12fsysRootOpen d (junks 0) name) calls)
          parts := ⟨fuel, hparts⟩
      simp only [if_pos hsession.type, Listing.serve, hsome, Option.elim_some]
      rw [List.drop_zero] at hflatten
      exact hflatten ▸ hgives.map _

theorem shown_blankDisk : Shown blankDisk [] ⟨[], (freeClusters blankDisk).length⟩ where
  laid := laid_blankDisk
  nodes := rfl
  each _ he := absurd he List.not_mem_nil
  slots := List.nil_prefix
  names := .nil
  free := rfl

end Akos.Fat12
