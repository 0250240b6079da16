import Akos.Fat12.Paths
import Akos.Fat12.Transfers

/-!
# Reading a file piece by piece

A file that was opened is read by one call after the other. Wherever a call ends, inside a sector, with it, or
clusters later, the next one goes on there.
-/

namespace Akos.Fat12

variable {d : Floppy} {f f' : FILE} {b : List Byte} {cs : List Nat} {n p s i fuel fuel' : Nat}
  {names : List (List Byte)}

/-- The bytes of a regular file: the entry has their number, and the chain has room for them, but no cluster too
many. -/
structure Stored (d : Floppy) (s i : Nat) (cs : List Nat) (b : List Byte) : Prop where
  type : ¬ IsDirectory d s i
  chain : Chain d cs
  first : (entryFirstCluster (d.sectors s) i).toNat = cs.getD 0 0
  clusters : cs.length = max 1 ((b.length + 511) / 512)
  size : (entryFileSize (d.sectors s) i).toNat = b.length
  bytes : ∀ k (hk : k < b.length), fileByte d cs k = b[k]

/-- A call of `fat12fsys_read`, with what its buffer holds before. -/
structure ReadCall where
  memory : Nat → Byte
  buffer : Nat
  length : BitVec 32

/-- The bytes in the buffer. -/
def ReadCall.filled (r : ReadCall) (memory : Nat → Byte) : List Byte :=
  (List.range r.length.toNat).map fun k => memory (r.buffer + k)

/-- The buffers that the calls fill on one handle. -/
def readAll (fuel : Nat) (d : Floppy) : FILE → List ReadCall → Option (List (List Byte))
  | _, [] => some []
  | f, r :: calls =>
    let read := fat12fsysRead fuel d f r.memory r.buffer r.length
    if read.returned then (readAll fuel read.disk read.file calls).map (r.filled read.memory :: ·) else none

/-- How many bytes are asked for. -/
def total (calls : List ReadCall) : Nat := (calls.map fun r => r.length.toNat).sum

theorem total_cons {r : ReadCall} {calls : List ReadCall} : total (r :: calls) = r.length.toNat + total calls := by
  rw [total, List.map_cons, List.sum_cons, ← total]

/-- A handle at a place of the file's chain. -/
structure Reading (f : FILE) (cs : List Nat) (b : List Byte) (p : Nat) : Prop where
  place : At f cs p
  inside : p < 512 * cs.length
  type : f.flags = .file
  length : f.fileLength.toNat = b.length

/-- A part of a list by the bytes of the file. -/
theorem filled_eq (h : Stored d s i cs b) {r : ReadCall} (hp : p + r.length.toNat ≤ b.length) :
    r.filled (memcpy r.memory r.buffer (fileByte d cs) p r.length.toNat) = (b.drop p).take r.length.toNat := by
  have hlength : ((b.drop p).take r.length.toNat).length = r.length.toNat := by
    rw [List.length_take, List.length_drop]
    omega
  refine List.ext_getElem ?_ fun k hk hk' => ?_
  · rw [ReadCall.filled, List.length_map, List.length_range, hlength]
  · have hlt : k < r.length.toNat := hlength ▸ hk'
    have hplace : p + (r.buffer + k - r.buffer) = p + k := by omega
    simp only [ReadCall.filled, List.getElem_map, List.getElem_range, memcpy, List.getElem_take, List.getElem_drop]
    rw [if_pos ⟨by omega, by omega⟩, hplace, h.bytes (p + k) (by omega)]

/-- One call delivers its part, and leaves the handle where the next one goes on. -/
theorem Reading.read (h : Reading f cs b p) (hstored : Stored d s i cs b) (r : ReadCall)
    (hp : p + r.length.toNat ≤ b.length) : ∃ fuel f', (∀ fuel' ≥ fuel,
      fat12fsysRead fuel' d f r.memory r.buffer r.length =
        ⟨d, f', memcpy r.memory r.buffer (fileByte d cs) p r.length.toNat, true⟩) ∧
      (p + r.length.toNat < 512 * cs.length → Reading f' cs b (p + r.length.toNat)) := by
  have hclusters := hstored.clusters
  have hends : f.EndsAt ((p + r.length.toNat) % 512) := by
    intro _
    have hmod := Nat.mod_le (p + r.length.toNat) 512
    refine ⟨by rw [h.type]; decide, ?_⟩
    rw [h.length]
    omega
  have hread : ∃ fuel f', fat12fsysRw .read fuel d f r.memory r.buffer r.length = _ ∧ _ :=
    rw_read hstored.chain h.place h.inside rfl hends (by omega)
  obtain ⟨fuel, f', hread, hmoved⟩ := hread
  refine ⟨fuel, f', fun fuel' hle => ?_, fun hinside => ⟨?_, hinside, ?_, ?_⟩⟩
  · rw [fat12fsysRead, rw_le (by rw [hread]) hle, hread]
  · have hplace := hmoved.place
    rwa [restPlace, if_pos hinside] at hplace
  · rw [hmoved.same]
    exact h.type
  · rw [hmoved.same]
    exact h.length

/-- Calls for no bytes do nothing. -/
theorem readAll_of_total_zero {calls : List ReadCall} (h : total calls = 0) :
    readAll (fuel + 1) d f calls = some (calls.map fun _ => []) := by
  induction calls with
  | nil => rfl
  | cons r calls ih =>
    rw [total_cons] at h
    have hzero : r.length.toNat = 0 := by omega
    have hread : fat12fsysRead (fuel + 1) d f r.memory r.buffer r.length = ⟨d, f, r.memory, true⟩ := rw_zero hzero
    have hfilled : r.filled r.memory = [] := by
      rw [ReadCall.filled, hzero]
      rfl
    rw [readAll, hread, if_pos rfl, ih (by omega), Option.map_some, hfilled, List.map_cons]

/-- The calls together deliver the bytes from the place of the handle on. -/
theorem Reading.readAll (h : Reading f cs b p) (hstored : Stored d s i cs b) (calls : List ReadCall)
    (hp : p + total calls ≤ b.length) : ∃ fuel parts, (∀ fuel' ≥ fuel, Fat12.readAll fuel' d f calls = some parts) ∧
      parts.flatten = (b.drop p).take (total calls) := by
  induction calls generalizing f p with
  | nil => exact ⟨0, [], fun _ _ => rfl, rfl⟩
  | cons r calls ih =>
    rw [total_cons] at hp ⊢
    obtain ⟨fuel, f', hread, hnext⟩ := h.read hstored r (by omega)
    have hrest : ∃ fuel parts, (∀ fuel' ≥ fuel, Fat12.readAll fuel' d f' calls = some parts) ∧
        parts.flatten = (b.drop (p + r.length.toNat)).take (total calls) := by
      by_cases hinside : p + r.length.toNat < 512 * cs.length
      · exact ih (hnext hinside) (by omega)
      · -- the chain was read to its end
        have hclusters := hstored.clusters
        have hzero : total calls = 0 := by omega
        refine ⟨1, calls.map fun _ => [], fun fuel' hle => ?_, ?_⟩
        · obtain ⟨more, rfl⟩ := Nat.exists_eq_add_of_le' hle
          exact readAll_of_total_zero hzero
        · rw [hzero, List.take_zero, List.flatten_eq_nil_iff]
          intro part hpart
          obtain ⟨_, -, rfl⟩ := List.mem_map.mp hpart
          rfl
    obtain ⟨more, parts, hparts, hflatten⟩ := hrest
    refine ⟨max fuel more, r.filled (memcpy r.memory r.buffer (fileByte d cs) p r.length.toNat) :: parts,
      fun fuel' hle => ?_, ?_⟩
    · rw [Fat12.readAll, hread fuel' ((le_max_left fuel more).trans hle), if_pos rfl,
        hparts fuel' ((le_max_right fuel more).trans hle), Option.map_some]
    · rw [List.flatten_cons, hflatten, filled_eq hstored (by omega), List.take_add, List.drop_drop]

/-- The handle of a regular file stands at its first byte. -/
theorem reading_of_matches (h : Stored d s i cs b) (hf : FilledIn d f s i) : Reading f cs b 0 where
  place := ⟨by rw [hf.agrees.cluster, h.first], by rw [hf.stands.position]; rfl⟩
  inside := by
    have hpos := h.chain.length_pos
    omega
  type := by rw [hf.agrees.type, if_neg h.type]
  length := by rw [hf.agrees.length, h.size]

/-- Whatever the path to a file and however the reads are cut, they deliver the bytes in order. -/
theorem reads_eq_take (calls : List ReadCall) (junk : Nat → FILE) (hnames : ∀ name ∈ names, backslash ∉ name)
    (hroot : names ≠ [[]]) (hpath : TreePath d names s i) (hstored : Stored d s i cs b)
    (hcalls : total calls ≤ b.length) : ∃ fuel f parts, parts.flatten = b.take (total calls) ∧ ∀ fuel' ≥ fuel,
      fat12fsysOpen fuel' d junk (joinPieces backslash names) = some f ∧ readAll fuel' d f calls = some parts := by
  have hne : names ≠ [] := by
    rintro rfl
    cases hpath
  obtain ⟨f, hf, fuel, hopen⟩ := openFrom_of_anyPath junk (Leads.anyPath hpath) rfl (.inl rfl)
    (components_joinPieces hnames)
  obtain ⟨more, parts, hparts, hflatten⟩ := (reading_of_matches hstored hf).readAll hstored calls (by omega)
  refine ⟨max fuel more, f, parts, hflatten, fun fuel' hle => ⟨?_, hparts fuel' ((le_max_right fuel more).trans hle)⟩⟩
  rw [open_joinPieces hnames hne hroot]
  exact hopen fuel' ((le_max_left fuel more).trans hle)

/-- `F` has 513 bytes, in clusters 2 and 3. -/
private def twoClusters : Floppy where
  sectors s k :=
    if s = 19 ∧ k < 32 then
      setEntryFileSize (setEntry (fun _ => 0#8) 0 (dosName [0x46#8] []) 0#8 2) 0 513#32 k
    else if s = 1 ∧ k = 3 then 0x03#8 else if s = 1 ∧ k = 4 then 0x80#8 else if s = 1 ∧ k = 5 then 0xFF#8
    else if 33 ≤ s then 7#8 else 0#8
  written := []

private theorem stored_twoClusters : Stored twoClusters 19 0 [2, 3] (List.replicate 513 7#8) where
  type := by decide +kernel
  chain := by
    refine ⟨by decide, by decide, by decide, fun i hi => ?_, by decide +kernel⟩
    rw [List.length_cons, List.length_singleton] at hi
    have hzero : i = 0 := by omega
    rw [hzero]
    decide +kernel
  first := by decide +kernel
  clusters := by rw [List.length_replicate]; rfl
  size := by rw [List.length_replicate]; decide +kernel
  bytes k hk := by
    rw [List.length_replicate] at hk
    rw [List.getElem_replicate, fileByte]
    have hplace : k / 512 = 0 ∨ k / 512 = 1 := by omega
    rcases hplace with hplace | hplace <;> rw [hplace] <;> rfl

theorem reads_eq_take_two : ∃ fuel f parts, parts.flatten = List.replicate 513 7#8 ∧
    fat12fsysOpen fuel twoClusters default (joinPieces backslash [[0x66#8]]) = some f ∧
    readAll fuel twoClusters f [⟨fun _ => 0#8, 0, 512#32⟩, ⟨fun _ => 0#8, 0, 1#32⟩] = some parts := by
  have hpath : TreePath twoClusters [[0x66#8]] 19 0 :=
    .last rfl (.root (by decide +kernel : _ = some (0, 0))) ⟨by decide +kernel, by decide +kernel⟩
  obtain ⟨fuel, f, parts, hparts, hfuel⟩ := reads_eq_take
    [⟨fun _ => 0#8, 0, 512#32⟩, ⟨fun _ => 0#8, 0, 1#32⟩] default (by decide) (by decide) hpath
    stored_twoClusters (by rw [List.length_replicate]; decide)
  exact ⟨fuel, f, parts, hparts.trans (List.take_of_length_le (by rw [List.length_replicate]; decide)),
    hfuel fuel (Nat.le_refl fuel)⟩

end Akos.Fat12
