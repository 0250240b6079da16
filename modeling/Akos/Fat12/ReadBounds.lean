import Akos.Fat12.Paths

/-!
# Where a read writes

`fat12fsys_read` on any disk and any handle. As long as whole rests of sectors are read, the remaining length goes
down to what is left. For a part of a sector it wraps, and the read goes on behind its buffer, unless it returns there
or the chain ends.
-/

namespace Akos.Fat12

variable {d : Floppy} {f g : FILE} {c e k m fuel buffer : Nat} {memory memory' : Nat → Byte} {length : BitVec 32}

/-- The cluster that many entries behind one. -/
def clusterAfter (d : Floppy) (c : Nat) : Nat → Option Nat
  | 0 => some c
  | k + 1 => (nextCluster d c).bind fun e => clusterAfter d e k

theorem clusterAfter_one (d : Floppy) (c : Nat) : clusterAfter d c 1 = nextCluster d c := Option.bind_fun_some _

/-- The last sector of a read: the number of clusters in front of it, the place in it, and what is left to read. -/
def lastPart (f : FILE) (length : BitVec 32) : Nat × BitVec 32 × BitVec 32 :=
  let room := 512#32 - f.position
  if length < room then (0, f.position, length)
  else (((length - room) / 512#32).toNat + 1, 0#32, (length - room) % 512#32)

theorem lastPart_of_lt (h : length < 512#32 - f.position) : lastPart f length = (0, f.position, length) := by
  rw [lastPart, if_pos h]

theorem lastPart_of_not_lt (h : ¬ length < 512#32 - f.position) : lastPart f length =
    (((length - (512#32 - f.position)) / 512#32).toNat + 1, 0#32, (length - (512#32 - f.position)) % 512#32) := by
  rw [lastPart, if_neg h]

/-- The read stops inside a sector where the code does not return, and there is a cluster to go on with. -/
def Overruns (d : Floppy) (f : FILE) (length : BitVec 32) : Prop :=
  let part := lastPart f length
  part.2.2 ≠ 0#32 ∧ (endsInSector { f with position := part.2.1 } part.2.2).1 = false ∧
    (clusterAfter d f.currentCluster (part.1 + 1)).isSome

instance (d : Floppy) (f : FILE) (length : BitVec 32) : Decidable (Overruns d f length) :=
  inferInstanceAs (Decidable (_ ∧ _))

/-- Bytes outside of the buffer are left alone. -/
def Inside (memory memory' : Nat → Byte) (buffer : Nat) (length : BitVec 32) : Prop :=
  ∀ k, k < buffer ∨ buffer + length.toNat ≤ k → memory' k = memory k

/-- Whatever was in memory, the read returns within this many nested calls, and writes only into its buffer. -/
def StaysInside (d : Floppy) (f : FILE) (length : BitVec 32) : Prop :=
  ∀ memory buffer, (fat12fsysRead (1 + (length.toNat + 511) / 512) d f memory buffer length).returned = true ∧
    Inside memory (fat12fsysRead (1 + (length.toNat + 511) / 512) d f memory buffer length).memory buffer length

/-! ### One sector -/

/-- Memory behind the part of a read within one sector. -/
def copied (d : Floppy) (f : FILE) (memory : Nat → Byte) (buffer : Nat) (length : BitVec 32) : Nat → Byte :=
  memcpy memory buffer (currentSector d f) f.position.toNat (copyCount f.position length)

/-- The handle at the start of a cluster. -/
def FILE.atCluster (f : FILE) (c : Nat) : FILE := { f with currentCluster := c, position := 0#32 }

@[simp] theorem atCluster_currentCluster (f : FILE) (c : Nat) : (f.atCluster c).currentCluster = c := rfl

@[simp] theorem atCluster_position (f : FILE) (c : Nat) : (f.atCluster c).position = 0#32 := rfl

/-- What the code does behind the copy. -/
theorem read_eq (hzero : length ≠ 0#32) (fuel : Nat) : fat12fsysRead (fuel + 1) d f memory buffer length =
    if (endsInSector f length).1 then ⟨d, (endsInSector f length).2, copied d f memory buffer length, true⟩
    else (nextCluster d f.currentCluster).elim
      ⟨d, { (endsInSector f length).2 with eof := true }, copied d f memory buffer length, true⟩ fun e =>
        fat12fsysRead fuel d ((endsInSector f length).2.atCluster e)
          (copied d f memory buffer length) (buffer + (512#32 - f.position).toNat) (length - (512#32 - f.position)) := by
  rw [fat12fsysRead, rw_eq hzero, rwSector]
  dsimp only
  rw [show copySector .read d f memory buffer length = (d, copied d f memory buffer length) from rfl]
  by_cases hends : (endsInSector f length).1 = true
  · rw [if_pos hends, if_pos hends]
    rfl
  · rw [if_neg hends, if_neg hends, nextSector_of_read, nextFile, endsInSector_cluster]
    cases nextCluster d f.currentCluster <;> rfl

theorem copyCount_le (position length : BitVec 32) : copyCount position length ≤ length.toNat ∧
    (¬ length < 512#32 - position → copyCount position length ≤ (512#32 - position).toNat) := by
  have hle : ∀ count : BitVec 32, count.toInt.toNat ≤ count.toNat := by
    intro count
    rw [BitVec.toInt_eq_toNat_cond]
    split <;> omega
  rw [copyCount]
  split
  · next hge =>
    have hroom := hle (512#32 - position)
    rw [ge_iff_le, BitVec.le_def] at hge
    exact ⟨Nat.le_trans hroom hge, fun _ => hroom⟩
  · next hlt =>
    refine ⟨hle length, fun hge => ?_⟩
    rw [ge_iff_le, BitVec.le_def] at hlt
    rw [BitVec.lt_def] at hge
    exact absurd (Nat.le_of_not_lt hge) hlt

theorem copied_of_outside {n : Nat} (hn : copyCount f.position length ≤ n) (hk : k < buffer ∨ buffer + n ≤ k) :
    copied d f memory buffer length k = memory k := by
  rw [copied, memcpy, if_neg]
  omega

/-- A read writes nothing in front of its buffer. -/
theorem read_of_lt (hk : k < buffer) : (fat12fsysRead fuel d f memory buffer length).memory k = memory k := by
  induction fuel generalizing f memory buffer length with
  | zero => rfl
  | succ fuel ih =>
    by_cases hzero : length = 0#32
    · rw [fat12fsysRead, fat12fsysRw, if_pos hzero]
    have hcopied : copied d f memory buffer length k = memory k := copied_of_outside (Nat.le_refl _) (.inl hk)
    rw [read_eq hzero]
    split
    · exact hcopied
    · cases nextCluster d f.currentCluster with
      | none => exact hcopied
      | some e => exact (ih (by omega)).trans hcopied

/-! ### From the start of a sector -/

/-- What is read from the start of a cluster does not stop inside a sector and go on. -/
def Fits (d : Floppy) (f : FILE) (length : BitVec 32) : Prop :=
  length % 512#32 ≠ 0#32 → (clusterAfter d f.currentCluster ((length / 512#32).toNat + 1)).isSome = true →
    (endsInSector { f with position := 0#32 } (length % 512#32)).1 = true

theorem toNat_div_512 (length : BitVec 32) : (length / 512#32).toNat = length.toNat / 512 := BitVec.toNat_udiv

theorem toNat_mod_512 (length : BitVec 32) : (length % 512#32).toNat = length.toNat % 512 := BitVec.toNat_umod

theorem endsInSector_of_not_lt (h : ¬ length < 512#32 - f.position) : endsInSector f length = (false, f) := if_neg h

/-- Whether a transfer ends does not depend on the cluster. -/
theorem endsInSector_congr (hposition : g.position = f.position) (hlength : g.fileLength = f.fileLength)
    (hflags : g.flags = f.flags) : (endsInSector g length).1 = (endsInSector f length).1 := by
  unfold endsInSector
  rw [hposition]
  split
  · dsimp only
    rw [hlength, hflags]
  · rfl

theorem toNat_sub_512 (h : ¬ length < 512#32) : (length - 512#32).toNat = length.toNat - 512 := by
  rw [BitVec.toNat_sub_of_le]
  · rfl
  · rw [BitVec.le_def]
    rw [BitVec.lt_def] at h
    omega

/-- One sector less is left. -/
theorem fits_next_iff (hlt : ¬ length < 512#32) (hnext : nextCluster d f.currentCluster = some e) :
    Fits d (f.atCluster e) (length - 512#32) ↔ Fits d f length := by
  have hsub := toNat_sub_512 hlt
  rw [BitVec.lt_def, show (512#32).toNat = 512 from rfl] at hlt
  have hmod : (length - 512#32) % 512#32 = length % 512#32 :=
    BitVec.eq_of_toNat_eq (by rw [toNat_mod_512, toNat_mod_512, hsub]; omega)
  have hdiv : (length / 512#32).toNat = ((length - 512#32) / 512#32).toNat + 1 := by
    rw [toNat_div_512, toNat_div_512, hsub]
    omega
  have hends : (endsInSector { f.atCluster e with position := 0#32 } (length % 512#32)).1 =
      (endsInSector { f with position := 0#32 } (length % 512#32)).1 := endsInSector_congr rfl rfl rfl
  have hafter : clusterAfter d f.currentCluster ((length / 512#32).toNat + 1) =
      clusterAfter d e (((length - 512#32) / 512#32).toNat + 1) := by
    rw [hdiv, clusterAfter, hnext, Option.bind_some]
  rw [Fits, Fits, hmod, hafter, hends]
  rfl

/-- Sector after sector, and the rest. -/
theorem read_of_fits (hposition : f.position = 0#32) (h : Fits d f length) (memory : Nat → Byte) (buffer : Nat) :
    (fat12fsysRead (length.toNat / 512 + 1) d f memory buffer length).returned = true ∧
      Inside memory (fat12fsysRead (length.toNat / 512 + 1) d f memory buffer length).memory buffer length := by
  generalize hn : length.toNat / 512 = n
  induction n generalizing f length memory buffer with
  | zero =>
    by_cases hzero : length = 0#32
    · rw [fat12fsysRead, fat12fsysRw, if_pos hzero]
      exact ⟨rfl, fun _ _ => rfl⟩
    have hinside : Inside memory (copied d f memory buffer length) buffer length :=
      fun k hk => copied_of_outside (copyCount_le f.position length).1 hk
    have hrest : length % 512#32 = length := BitVec.eq_of_toNat_eq (by rw [toNat_mod_512]; omega)
    rw [read_eq hzero]
    split
    · exact ⟨rfl, hinside⟩
    next hgoes =>
    cases hnext : nextCluster d f.currentCluster with
    | none => exact ⟨rfl, hinside⟩
    | some e =>
      have hends := h (by rw [hrest]; exact hzero) (by rw [toNat_div_512, hn, clusterAfter, hnext]; rfl)
      rw [hrest, ← hposition] at hends
      exact absurd hends hgoes
  | succ n ih =>
    have hlt : ¬ length < 512#32 := by
      rw [BitVec.lt_def, show (512#32).toNat = 512 from rfl]
      omega
    have hroom : 512#32 - f.position = 512#32 := by rw [hposition]; rfl
    have hsub := toNat_sub_512 hlt
    have hzero : length ≠ 0#32 := fun heq => hlt (by rw [heq]; decide)
    have hcount : copyCount f.position length ≤ 512 := by
      have hle := (copyCount_le f.position length).2 (by rw [hroom]; exact hlt)
      rw [hroom] at hle
      exact hle
    rw [read_eq hzero, endsInSector_of_not_lt (by rw [hroom]; exact hlt), if_neg Bool.false_ne_true, hroom]
    have hinside : ∀ k, k < buffer ∨ buffer + length.toNat ≤ k →
        copied d f memory buffer length k = memory k := fun k hk => copied_of_outside hcount (by omega)
    cases hnext : nextCluster d f.currentCluster with
    | none => exact ⟨rfl, hinside⟩
    | some e =>
      obtain ⟨hreturned, hkept⟩ := ih (f := f.atCluster e) rfl
        ((fits_next_iff hlt hnext).mpr h) (copied d f memory buffer length) (buffer + (512#32).toNat) (by rw [hsub]; omega)
      rw [Option.elim_some]
      refine ⟨hreturned, fun k hk => (hkept k ?_).trans (hinside k hk)⟩
      rw [hsub, show (512#32).toNat = 512 from rfl]
      omega

/-- As long as there are whole sectors to read, the read goes down the chain. -/
theorem returned_iff_of_sectors {n : Nat} (hposition : f.position = 0#32) (hn : n ≤ length.toNat / 512)
    (memory : Nat → Byte) (buffer : Nat) :
    (fat12fsysRead n d f memory buffer length).returned = true ↔ clusterAfter d f.currentCluster n = none := by
  induction n generalizing f length memory buffer with
  | zero => exact iff_of_false Bool.false_ne_true (Option.some_ne_none _)
  | succ n ih =>
    have hlt : ¬ length < 512#32 := by
      rw [BitVec.lt_def, show (512#32).toNat = 512 from rfl]
      omega
    have hroom : 512#32 - f.position = 512#32 := by rw [hposition]; rfl
    have hsub := toNat_sub_512 hlt
    have hzero : length ≠ 0#32 := fun heq => hlt (by rw [heq]; decide)
    rw [read_eq hzero, endsInSector_of_not_lt (by rw [hroom]; exact hlt), if_neg Bool.false_ne_true, hroom, clusterAfter]
    cases hnext : nextCluster d f.currentCluster with
    | none => exact iff_of_true rfl rfl
    | some e =>
      rw [Option.elim_some, Option.bind_some]
      exact ih (f := f.atCluster e) rfl (by rw [hsub]; omega) _ _

/-! ### Behind the buffer -/

/-- The first byte that is read from the start of a sector. -/
theorem read_first (hposition : f.position = 0#32) (hzero : length ≠ 0#32)
    (hreturned : (fat12fsysRead fuel d f memory buffer length).returned = true) :
    (fat12fsysRead fuel d f memory buffer length).memory buffer = currentSector d f 0 := by
  cases fuel with
  | zero => cases hreturned
  | succ fuel =>
    have hpos : 0 < length.toNat := Nat.pos_of_ne_zero fun heq => hzero (BitVec.eq_of_toNat_eq heq)
    have hcopied : copied d f memory buffer length buffer = currentSector d f 0 := by
      rw [copied, copyCount_eq (by rw [hposition]; decide), hposition, memcpy, if_pos]
      · rw [Nat.sub_self]
        rfl
      · rw [show (0#32).toNat = 0 from rfl]
        omega
    rw [read_eq hzero]
    split
    · exact hcopied
    · cases nextCluster d f.currentCluster with
      | none => exact hcopied
      | some e =>
        rw [Option.elim_some, read_of_lt, hcopied]
        rw [hposition, show (512#32 - 0#32).toNat = 512 from rfl]
        omega

/-- A read that stops inside a sector and goes on does so at the end of the sector. -/
theorem read_behind (hlt : length < 512#32 - f.position) (hzero : length ≠ 0#32)
    (hgoes : (endsInSector f length).1 = false) (hnext : nextCluster d f.currentCluster = some e)
    (hreturned : (fat12fsysRead fuel d f memory buffer length).returned = true) :
    (fat12fsysRead fuel d f memory buffer length).memory (buffer + (512#32 - f.position).toNat) =
      flpydskReadSector d (physSector e) 0 := by
  cases fuel with
  | zero => cases hreturned
  | succ fuel =>
    rw [read_eq hzero, hgoes, if_neg Bool.false_ne_true, hnext, Option.elim_some] at hreturned ⊢
    have hrest : length - (512#32 - f.position) ≠ 0#32 := fun heq => by
      rw [BitVec.sub_eq_iff_eq_add, BitVec.zero_add] at heq
      rw [heq, BitVec.lt_def] at hlt
      exact absurd hlt (Nat.lt_irrefl _)
    exact read_first (f := (endsInSector f length).2.atCluster e) rfl hrest hreturned

/-- The byte behind the buffer that is written, and what is written there. -/
theorem exists_behind (hposition : f.position = 0#32) (h : ¬ Fits d f length) (buffer : Nat) :
    ∃ k v, buffer + length.toNat ≤ k ∧ ∀ memory fuel,
      (fat12fsysRead fuel d f memory buffer length).returned = true →
      (fat12fsysRead fuel d f memory buffer length).memory k = v := by
  generalize hn : length.toNat / 512 = n
  have hroom : 512#32 - f.position = 512#32 := by rw [hposition]; rfl
  induction n generalizing f length buffer with
  | zero =>
    have hrest : length % 512#32 = length := BitVec.eq_of_toNat_eq (by rw [toNat_mod_512]; omega)
    have hsame : (endsInSector { f with position := 0#32 } length).1 = (endsInSector f length).1 :=
      endsInSector_congr hposition.symm rfl rfl
    rw [Fits, hrest, hsame, toNat_div_512, hn, clusterAfter, Classical.not_imp, Classical.not_imp,
      Bool.not_eq_true] at h
    obtain ⟨hzero, hsome, hgoes⟩ := h
    cases hnext : nextCluster d f.currentCluster with
    | none =>
      rw [hnext] at hsome
      cases hsome
    | some e =>
      have hlt : length < 512#32 - f.position := by
        rw [hroom, BitVec.lt_def, show (512#32).toNat = 512 from rfl]
        omega
      refine ⟨_, _, ?_, fun memory fuel hreturned => read_behind hlt hzero hgoes hnext hreturned⟩
      rw [BitVec.lt_def] at hlt
      omega
  | succ n ih =>
    have hlt : ¬ length < 512#32 := by
      rw [BitVec.lt_def, show (512#32).toNat = 512 from rfl]
      omega
    have hsub := toNat_sub_512 hlt
    have hzero : length ≠ 0#32 := fun heq => hlt (by rw [heq]; decide)
    cases hnext : nextCluster d f.currentCluster with
    | none =>
      refine absurd (fun _ hsome => ?_) h
      rw [clusterAfter, hnext] at hsome
      cases hsome
    | some e =>
      obtain ⟨k, v, hk, hbehind⟩ := ih (f := f.atCluster e) rfl
        (fun hfits => h ((fits_next_iff hlt hnext).mp hfits)) (buffer + (512#32).toNat) (by rw [hsub]; omega)
        (by rw [atCluster_position]; rfl)
      have hbehind' : ∀ memory fuel, (fat12fsysRead fuel d f memory buffer length).returned = true →
          (fat12fsysRead fuel d f memory buffer length).memory k = v := by
        intro memory fuel hreturned
        cases fuel with
        | zero => cases hreturned
        | succ fuel =>
          rw [read_eq hzero, endsInSector_of_not_lt (by rw [hroom]; exact hlt), if_neg Bool.false_ne_true, hnext,
            Option.elim_some, hroom] at hreturned ⊢
          exact hbehind _ _ hreturned
      rw [hsub, show (512#32).toNat = 512 from rfl] at hk
      exact ⟨k, v, by omega, hbehind'⟩

/-! ### From anywhere in a sector -/

/-- A handle that stands behind its sector costs one call more. No handle that was opened by a name stands there, but
nothing sets the position of the root's. -/
def StandsBehind (d : Floppy) (f : FILE) (length : BitVec 32) : Prop :=
  f.position = 512#32 ∧ length ≠ 0#32 ∧ length % 512#32 = 0#32 ∧
    (clusterAfter d f.currentCluster ((length / 512#32).toNat + 1)).isSome

theorem read_zero (fuel : Nat) : fat12fsysRead (fuel + 1) d f memory buffer 0#32 = ⟨d, f, memory, true⟩ := rw_zero rfl

theorem staysInside_zero (d : Floppy) (f : FILE) : StaysInside d f 0#32 := by
  intro memory buffer
  rw [Nat.add_comm, read_zero]
  exact ⟨rfl, fun _ _ => rfl⟩

theorem not_overruns_zero (d : Floppy) (f : FILE) : ¬ Overruns d f 0#32 := by
  intro hover
  have hrest := hover.1
  by_cases hlt : 0#32 < 512#32 - f.position
  · rw [lastPart_of_lt hlt] at hrest
    exact hrest rfl
  · have hroom : 512#32 - f.position = 0#32 := BitVec.eq_of_toNat_eq (Nat.le_zero.mp (Nat.not_lt.mp hlt))
    rw [lastPart_of_not_lt hlt, hroom] at hrest
    exact hrest rfl

/-- Within one sector. -/
theorem staysInside_iff_of_lt (hlt : length < 512#32 - f.position) : StaysInside d f length ↔ ¬ Overruns d f length := by
  by_cases hzero : length = 0#32
  · rw [hzero]
    exact iff_of_true (staysInside_zero d f) (not_overruns_zero d f)
  rw [Overruns, lastPart_of_lt hlt]
  dsimp only
  rw [Nat.zero_add, clusterAfter_one]
  have hinside : ∀ memory buffer, Inside memory (copied d f memory buffer length) buffer length :=
    fun memory buffer k hk => copied_of_outside (copyCount_le f.position length).1 hk
  cases hends : (endsInSector f length).1 with
  | true =>
    refine iff_of_true (fun memory buffer => ?_) fun hover => Bool.noConfusion hover.2.1
    rw [Nat.add_comm, read_eq hzero, if_pos hends]
    exact ⟨rfl, hinside memory buffer⟩
  | false =>
    cases hnext : nextCluster d f.currentCluster with
    | none =>
      refine iff_of_true (fun memory buffer => ?_) fun hover => Bool.noConfusion hover.2.2
      rw [Nat.add_comm, read_eq hzero, hends, if_neg Bool.false_ne_true, hnext, Option.elim_none]
      exact ⟨rfl, hinside memory buffer⟩
    | some e =>
      refine iff_of_false (fun hstays => ?_) fun hover => hover ⟨hzero, rfl, rfl⟩
      let other : Byte := flpydskReadSector d (physSector e) 0 + 1#8
      obtain ⟨hreturned, hkept⟩ := hstays (fun _ => other) 0
      have hsame := hkept (0 + (512#32 - f.position).toNat) (.inr (by rw [BitVec.lt_def] at hlt; omega))
      rw [read_behind hlt hzero hends hnext hreturned] at hsame
      exact absurd hsame (by simp [other])

theorem clusterAfter_succ (hnext : nextCluster d f.currentCluster = some e) (k : Nat) :
    clusterAfter d f.currentCluster (k + 1) = clusterAfter d e k := by
  rw [clusterAfter, hnext, Option.bind_some]

theorem overruns_iff_of_next (hlt : ¬ length < 512#32 - f.position) (hnext : nextCluster d f.currentCluster = some e) :
    Overruns d f length ↔ ¬ Fits d (f.atCluster e) (length - (512#32 - f.position)) := by
  have hends : (endsInSector { f.atCluster e with position := 0#32 } ((length - (512#32 - f.position)) % 512#32)).1 =
      (endsInSector { f with position := 0#32 } ((length - (512#32 - f.position)) % 512#32)).1 :=
    endsInSector_congr rfl rfl rfl
  rw [Overruns, lastPart_of_not_lt hlt, Fits, Classical.not_imp, Classical.not_imp, Bool.not_eq_true, hends,
    atCluster_currentCluster]
  dsimp only
  rw [clusterAfter_succ hnext]
  exact and_congr_right fun _ => and_comm

/-- The read goes on in the next cluster. -/
theorem read_of_not_lt (hzero : length ≠ 0#32) (hlt : ¬ length < 512#32 - f.position)
    (hnext : nextCluster d f.currentCluster = some e) (fuel : Nat) : fat12fsysRead (fuel + 1) d f memory buffer length =
      fat12fsysRead fuel d (f.atCluster e) (copied d f memory buffer length)
        (buffer + (512#32 - f.position).toNat) (length - (512#32 - f.position)) := by
  rw [read_eq hzero, endsInSector_of_not_lt hlt, if_neg Bool.false_ne_true, hnext, Option.elim_some]

theorem toNat_sub_room (hlt : ¬ length < 512#32 - f.position) :
    (length - (512#32 - f.position)).toNat + (512#32 - f.position).toNat = length.toNat := by
  have hle := BitVec.not_lt.mp hlt
  rw [BitVec.toNat_sub_of_le hle]
  exact Nat.sub_add_cancel hle

theorem fits_of_staysInside (hzero : length ≠ 0#32) (hlt : ¬ length < 512#32 - f.position)
    (hnext : nextCluster d f.currentCluster = some e) (h : StaysInside d f length) :
    Fits d (f.atCluster e) (length - (512#32 - f.position)) := by
  by_contra hfits
  obtain ⟨k, v, hk, hbehind⟩ := exists_behind rfl hfits (0 + (512#32 - f.position).toNat)
  obtain ⟨hreturned, hkept⟩ := h (fun _ => v + 1#8) 0
  have hroom := toNat_sub_room hlt
  have hsame := hkept k (.inr (by omega))
  rw [Nat.add_comm 1, read_of_not_lt hzero hlt hnext] at hreturned hsame
  rw [hbehind _ _ hreturned] at hsame
  exact absurd hsame (by simp)

theorem eq_512_of_room (h : (512#32 - f.position).toNat = 0) : f.position = 512#32 := by
  have hroom : 512#32 - f.position = 0#32 := BitVec.eq_of_toNat_eq h
  rw [BitVec.sub_eq_iff_eq_add, BitVec.zero_add] at hroom
  exact hroom.symm

/-- The calls that are left are enough, except for a handle behind its sector. -/
theorem returned_next (hzero : length ≠ 0#32) (hlt : ¬ length < 512#32 - f.position)
    (hnext : nextCluster d f.currentCluster = some e) (hfits : Fits d (f.atCluster e) (length - (512#32 - f.position)))
    (hbehind : ¬ StandsBehind d f length) (memory : Nat → Byte) (buffer : Nat) :
    (fat12fsysRead ((length.toNat + 511) / 512) d (f.atCluster e) memory buffer
      (length - (512#32 - f.position))).returned = true := by
  have hroom := toNat_sub_room hlt
  have hpos : 0 < length.toNat := Nat.pos_of_ne_zero fun heq => hzero (BitVec.eq_of_toNat_eq heq)
  obtain ⟨hreturned, _⟩ := read_of_fits rfl hfits memory buffer
  by_cases hcalls : (length - (512#32 - f.position)).toNat / 512 + 1 ≤ (length.toNat + 511) / 512
  · rw [fat12fsysRead, rw_le hreturned hcalls]
    exact hreturned
  · have hposition : f.position = 512#32 := eq_512_of_room (by omega)
    have hrest : length % 512#32 = 0#32 := BitVec.eq_of_toNat_eq (by rw [toNat_mod_512, BitVec.toNat_zero]; omega)
    have hafter : ¬ (clusterAfter d f.currentCluster ((length / 512#32).toNat + 1)).isSome = true :=
      fun hsome => hbehind ⟨hposition, hzero, hrest, hsome⟩
    rw [clusterAfter_succ hnext, toNat_div_512, Option.not_isSome_iff_eq_none] at hafter
    rw [returned_iff_of_sectors rfl (by omega)]
    rw [← hafter, atCluster_currentCluster, show (length.toNat + 511) / 512 = length.toNat / 512 by omega]

theorem not_standsBehind_of_staysInside (hnext : nextCluster d f.currentCluster = some e)
    (h : StaysInside d f length) : ¬ StandsBehind d f length := by
  intro hbehind
  obtain ⟨hposition, hzero, hrest, hsome⟩ := hbehind
  have hroom : (512#32 - f.position).toNat = 0 := by rw [hposition]; rfl
  have hlt : ¬ length < 512#32 - f.position := by
    rw [BitVec.lt_def, hroom]
    exact Nat.not_lt_zero _
  have hsub := toNat_sub_room hlt
  have hmod : length.toNat % 512 = 0 := by rw [← toNat_mod_512, hrest]; rfl
  obtain ⟨hreturned, _⟩ := h (fun _ => 0#8) 0
  rw [Nat.add_comm 1, read_of_not_lt hzero hlt hnext, returned_iff_of_sectors rfl (by omega), atCluster_currentCluster,
    ← clusterAfter_succ hnext, show (length.toNat + 511) / 512 = (length / 512#32).toNat by rw [toNat_div_512]; omega]
    at hreturned
  rw [hreturned] at hsome
  cases hsome

/-- Beyond the sector of the handle. -/
theorem staysInside_iff_of_not_lt (hlt : ¬ length < 512#32 - f.position) :
    StaysInside d f length ↔ ¬ Overruns d f length ∧ ¬ StandsBehind d f length := by
  by_cases hzero : length = 0#32
  · rw [hzero]
    exact iff_of_true (staysInside_zero d f) ⟨not_overruns_zero d f, fun hbehind => hbehind.2.1 rfl⟩
  have hcount := (copyCount_le f.position length).2 hlt
  have hsub := toNat_sub_room hlt
  cases hnext : nextCluster d f.currentCluster with
  | none =>
    refine iff_of_true (fun memory buffer => ?_) ⟨fun hover => ?_, fun hbehind => ?_⟩
    · rw [Nat.add_comm, read_eq hzero, endsInSector_of_not_lt hlt, if_neg Bool.false_ne_true, hnext, Option.elim_none]
      exact ⟨rfl, fun k hk => copied_of_outside (copyCount_le f.position length).1 hk⟩
    · have hsome := hover.2.2
      rw [clusterAfter, hnext] at hsome
      cases hsome
    · have hsome := hbehind.2.2.2
      rw [clusterAfter, hnext] at hsome
      cases hsome
  | some e =>
    rw [overruns_iff_of_next hlt hnext, not_not]
    refine ⟨fun hstays => ⟨fits_of_staysInside hzero hlt hnext hstays, not_standsBehind_of_staysInside hnext hstays⟩,
      fun hcond memory buffer => ?_⟩
    obtain ⟨hfits, hbehind⟩ := hcond
    have hreturned := returned_next hzero hlt hnext hfits hbehind (copied d f memory buffer length)
      (buffer + (512#32 - f.position).toNat)
    obtain ⟨hfull, hkept⟩ := read_of_fits rfl hfits (copied d f memory buffer length)
      (buffer + (512#32 - f.position).toNat)
    rw [fat12fsysRead, rw_unique hfull hreturned] at hkept
    rw [Nat.add_comm, read_of_not_lt hzero hlt hnext]
    exact ⟨hreturned, fun k hk => (hkept k (by omega)).trans (copied_of_outside hcount (by omega))⟩

/-- The exact condition, for every disk, every handle and every length. -/
theorem staysInside_iff (d : Floppy) (f : FILE) (length : BitVec 32) :
    StaysInside d f length ↔ ¬ Overruns d f length ∧ ¬ StandsBehind d f length := by
  by_cases hlt : length < 512#32 - f.position
  · have hbehind : ¬ StandsBehind d f length := by
      intro hbehind
      rw [hbehind.1, BitVec.lt_def] at hlt
      exact absurd hlt (Nat.not_lt_zero _)
    rw [staysInside_iff_of_lt hlt]
    exact (and_iff_left hbehind).symm
  · exact staysInside_iff_of_not_lt hlt

/-- `A` has 10 bytes, and a chain of two clusters. -/
private def longChain : Floppy where
  sectors s k :=
    if s = 19 ∧ k < 32 then
      setEntryFileSize (setEntry (fun _ => 0#8) 0 (dosName [0x41#8] []) 0#8 2) 0 10#32 k
    else if s = 1 ∧ k = 3 then 0x03#8 else if s = 1 ∧ k = 4 then 0x80#8 else if s = 1 ∧ k = 5 then 0xFF#8 else 0#8
  written := []

/-- Of that file, 100 bytes are read. -/
theorem not_staysInside_of_open : ¬ ∀ (fuel : Nat) (d : Floppy) (junk : Nat → FILE) (path : List Byte) (f : FILE)
    (length : BitVec 32), fat12fsysOpen fuel d junk path = some f → f.flags ≠ .invalid → StaysInside d f length := by
  intro h
  have hsome : (fat12fsysOpen 1 longChain default [backslash, 0x41#8]).isSome = true := by decide +kernel
  obtain ⟨f, hopen⟩ := Option.isSome_iff_exists.mp hsome
  have hfacts : (fat12fsysOpen 1 longChain default [backslash, 0x41#8]).all (fun f =>
      decide (f.flags ≠ .invalid ∧ 100#32 < 512#32 - f.position ∧ Overruns longChain f 100#32)) = true := by decide +kernel
  rw [hopen, Option.all_some, decide_eq_true_iff] at hfacts
  obtain ⟨hflags, hlt, hover⟩ := hfacts
  exact (staysInside_iff_of_lt hlt).mp (h 1 longChain default _ f 100#32 hopen hflags) hover

/-! ### Handles that are opened by a name -/

theorem position_endsInSector (h : f.position.toNat < 512) (length : BitVec 32) :
    (endsInSector f length).2.position.toNat < 512 := by
  unfold endsInSector
  split
  · next hlt =>
    rw [BitVec.lt_def, toNat_left h] at hlt
    dsimp only
    rw [BitVec.toNat_add, Nat.mod_eq_of_lt (by omega)]
    omega
  · exact h

theorem position_read (h : f.position.toNat < 512) :
    (fat12fsysRead fuel d f memory buffer length).file.position.toNat < 512 := by
  induction fuel generalizing f memory buffer length with
  | zero => exact h
  | succ fuel ih =>
    by_cases hzero : length = 0#32
    · rw [hzero, read_zero]
      exact h
    have hends := position_endsInSector h length
    generalize hnext : (endsInSector f length).2 = next at hends
    rw [read_eq hzero, hnext]
    split
    · exact hends
    · cases nextCluster d f.currentCluster with
      | none =>
        rw [Option.elim_none]
        exact hends
      | some e =>
        rw [Option.elim_some]
        refine ih ?_
        rw [atCluster_position]
        decide

theorem position_rootOpen {junk : FILE} {name : List Byte} (h : (fat12fsysRootOpen d junk name).flags ≠ .invalid) :
    (fat12fsysRootOpen d junk name).position = 0#32 := by
  revert h
  unfold fat12fsysRootOpen
  cases toDosFileName name with
  | none => exact fun h => absurd rfl h
  | some dosFileName =>
    dsimp only
    split
    · exact fun h => absurd rfl h
    · exact fun _ => rfl

theorem position_searchSubdir {junk kFile : FILE} {name dosFileName : List Byte}
    (hopen : searchSubdir d junk name dosFileName fuel kFile = some f) (h : f.flags ≠ .invalid) : f.position = 0#32 := by
  induction fuel generalizing kFile with
  | zero => cases hopen
  | succ fuel ih =>
    rw [searchSubdir] at hopen
    split at hopen
    · rw [← Option.some.inj hopen] at h
      exact absurd rfl h
    · dsimp only at hopen
      split at hopen
      · cases hopen
      · split at hopen
        · exact ih hopen
        · rw [← Option.some.inj hopen]
          rfl

theorem position_openFrom {junk : Nat → FILE} {path : List Byte} {n i : Nat} {currFile : FILE}
    (hopen : openFrom fuel d junk path n i currFile = some f) (h : f.flags ≠ .invalid)
    (hcurr : n = 0 → currFile.position = 0#32) : f.position = 0#32 := by
  induction n generalizing i currFile with
  | zero =>
    rw [← Option.some.inj hopen]
    exact hcurr rfl
  | succ n ih =>
    rw [openFrom] at hopen
    obtain ⟨next, hnext, hopen⟩ := Option.bind_eq_some_iff.mp hopen
    split at hopen
    · next hinvalid =>
      rw [← Option.some.inj hopen] at h
      exact absurd hinvalid h
    next hvalid =>
    refine ih hopen fun _ => ?_
    split at hnext
    · rw [← Option.some.inj hnext] at hvalid ⊢
      exact position_rootOpen hvalid
    · unfold fat12fsysSubdirOpen at hnext
      split at hnext
      · rw [← Option.some.inj hnext] at hvalid
        exact absurd rfl hvalid
      · exact position_searchSubdir hnext hvalid

/-- What was opened by a name stands at the start of its sector, and after any read within one. -/
theorem position_open {junk : Nat → FILE} {path : List Byte} (hroot : strcmp path [backslash] = false)
    (hempty : strcmp path [] = false) (hopen : fat12fsysOpen fuel d junk path = some f) (h : f.flags ≠ .invalid) :
    f.position = 0#32 := by
  rw [fat12fsysOpen, hroot, hempty, if_neg (by decide)] at hopen
  exact position_openFrom hopen h fun hzero => absurd hzero (by rw [countSubstrings]; omega)

/-- Such a handle leaves its buffer only where it stops inside a sector and goes on. -/
theorem staysInside_iff_of_position (h : f.position.toNat < 512) : StaysInside d f length ↔ ¬ Overruns d f length := by
  have hbehind : ¬ StandsBehind d f length := by
    intro hbehind
    rw [hbehind.1] at h
    exact absurd h (by decide)
  by_cases hlt : length < 512#32 - f.position
  · exact staysInside_iff_of_lt hlt
  · exact (staysInside_iff_of_not_lt hlt).trans (and_iff_left hbehind)

end Akos.Fat12
