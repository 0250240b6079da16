import Akos.Fat12.Creation

/-!
# What a creation overwrites

A slot counts as free for the code when it has no cluster. An empty file of another system has none either, and
names are compared only up to the first slot that has none.
-/

namespace Akos.Fat12

/-- The root directory, or the one in the clusters of a chain. -/
inductive Directory
  | root
  | sub (cs : List Nat)

def Directory.sectors : Directory → List Nat
  | .root => rootSectors
  | .sub cs => cs.map physSector

/-- The handle is that of the directory, as it was opened. -/
def Directory.IsOpen (d : Floppy) (f : FILE) : Directory → Prop
  | .root => f.flags = .directory ∧ (f.name = [backslash] ∨ f.name = [])
  | .sub cs => f.flags = .directory ∧ ¬ (f.name = [backslash] ∨ f.name = []) ∧ Chain d cs ∧ Stands f (cs.getD 0 0)

variable {d d' : Floppy} {f : FILE} {name dosFileName : List Byte} {flags : Flags} {cs sectors : List Nat}
  {p q : Nat × Nat} {dir : Directory}

/-- Whether a slot is in use is told by the first byte of its name; no two in use have the same name. -/
def DistinctLive (d : Floppy) (sectors : List Nat) : Prop :=
  ∀ p ∈ slotsOf sectors, ∀ q ∈ slotsOf sectors, IsLive d p.1 p.2 → IsLive d q.1 q.2 →
    entryName (d.sectors p.1) p.2 = entryName (d.sectors q.1) q.2 → p = q

/-- A slot in use has the name. -/
def LiveName (d : Floppy) (sectors : List Nat) (dosFileName : List Byte) : Prop :=
  ∃ p ∈ slotsOf sectors, IsLive d p.1 p.2 ∧ entryName (d.sectors p.1) p.2 = dosFileName

/-- What is claimed of the disk after a creation in a directory. Outside of the directory's slots, only the sector of
a cluster that was free can change. -/
structure Harmless (d d' : Floppy) (sectors : List Nat) (name : List Byte) : Prop where
  one : ∀ p ∈ slotsOf sectors, ∀ q ∈ slotsOf sectors, Changed d d' p → Changed d d' q → p = q
  unused : ∀ p ∈ slotsOf sectors, Changed d d' p → ¬ IsLive d p.1 p.2
  elsewhere : ∀ s ≥ 14, s ∉ sectors → d'.sectors s ≠ d.sectors s → ∃ c, fatEntry d c = 0#16 ∧ s = physSector c
  distinct : DistinctLive d' sectors
  same : (∀ dosFileName, toDosFileName name = some dosFileName → LiveName d sectors dosFileName) → d'.sectors = d.sectors

/-- The creation returns, with such a disk. -/
def NeverOverwrites (d : Floppy) (dir : Directory) (f : FILE) (name : List Byte) (flags : Flags) : Prop :=
  ∀ junk, ∃ fuel d', (∀ fuel' ≥ fuel, fat12fsysCreate fuel' d junk f name flags = some d') ∧
    Harmless d d' dir.sectors name

/-- The search stops at a slot without a cluster, one can be taken for it, and the slot is in use or another one has
the name. -/
def Clobbers (d : Floppy) (sectors : List Nat) (name : List Byte) : Prop :=
  ∃ dosFileName p, toDosFileName name = some dosFileName ∧ firstStop d sectors dosFileName = some p ∧
    entryFirstCluster (d.sectors p.1) p.2 = 0#16 ∧ (∃ c, 2 ≤ c ∧ c < 0xFF0 ∧ fatEntry d c = 0#16) ∧
    (IsLive d p.1 p.2 ∨ LiveName d sectors dosFileName)

/-! ### The directory's sectors -/

theorem mem_rootSectors {s : Nat} : s ∈ rootSectors ↔ 19 ≤ s ∧ s < 33 := by
  rw [rootSectors, List.mem_map]
  constructor
  · rintro ⟨k, hk, rfl⟩
    have hlt := List.mem_range.mp hk
    unfold rootOffset
    omega
  · rintro ⟨hle, hlt⟩
    exact ⟨s - 19, List.mem_range.mpr (by omega), by unfold rootOffset; omega⟩

/-- A directory lies behind the table, and not in a free cluster. -/
theorem Directory.IsOpen.sector (h : dir.IsOpen d f) {s : Nat} (hs : s ∈ dir.sectors) :
    14 ≤ s ∧ ∀ c, 2 ≤ c → fatEntry d c = 0#16 → s ≠ physSector c := by
  cases dir with
  | root =>
    obtain ⟨hle, hlt⟩ := mem_rootSectors.mp hs
    exact ⟨by omega, fun c hc _ => by unfold physSector; omega⟩
  | sub cs =>
    obtain ⟨-, -, hcs, -⟩ := h
    obtain ⟨c, hc, rfl⟩ := List.mem_map.mp hs
    refine ⟨by unfold physSector; have := (hcs.data c hc).1; omega, fun e _ hfree heq => ?_⟩
    exact hcs.entry_ne_zero hc (physSector_injective heq ▸ hfree)

/-- A creation in an open directory returns. -/
theorem create_eq (h : dir.IsOpen d f) (junk : FILE) (name : List Byte) (flags : Flags) :
    ∃ fuel, ∀ fuel' ≥ fuel, fat12fsysCreate fuel' d junk f name flags =
      some ((toDosFileName name).elim d fun dosFileName => created d dir.sectors dosFileName flags) := by
  have hflags : f.flags = .directory := by cases dir <;> exact h.1
  cases hdos : toDosFileName name with
  | none =>
    refine ⟨0, fun fuel' _ => ?_⟩
    rw [fat12fsysCreate, if_neg fun hne => hne hflags]
    simp only [hdos]
    rfl
  | some dosFileName =>
    cases dir with
    | root =>
      refine ⟨2, fun fuel' hle => ?_⟩
      obtain ⟨more, rfl⟩ := Nat.exists_eq_add_of_le' hle
      rw [fat12fsysCreate, if_neg fun hne => hne hflags]
      simp only [hdos]
      rw [if_pos (by simpa [strcmp] using h.2), createInRoot_eq]
      rfl
    | sub cs =>
      obtain ⟨-, hname, hcs, hf⟩ := h
      obtain ⟨c, cs, rfl⟩ := List.exists_cons_of_ne_nil hcs.ne_nil
      refine ⟨cs.length + 2, fun fuel' hle => ?_⟩
      obtain ⟨more, rfl⟩ := Nat.exists_eq_add_of_le' (Nat.le_trans (Nat.le_add_left 2 _) hle)
      rw [fat12fsysCreate, if_neg fun hne => hne hflags]
      simp only [hdos]
      rw [if_neg (by simpa [strcmp] using hname), createInSubdir_eq hcs hf hflags hle]
      rfl

/-! ### Harm -/

theorem harmless_refl (h : DistinctLive d sectors) (name : List Byte) : Harmless d d sectors name where
  one _ _ _ _ hp _ := by
    obtain ⟨k, _, hk⟩ := hp
    exact absurd rfl hk
  unused _ _ hp := by
    obtain ⟨k, _, hk⟩ := hp
    exact absurd rfl hk
  elsewhere _ _ _ hne := absurd rfl hne
  distinct := h
  same _ := rfl

/-- A new entry in a slot that is not in use, under a name that is not. -/
theorem Puts.harmless (h : Puts d d' dosFileName flags p) (hdir : dir.IsOpen d f)
    (hlive : DistinctLive d dir.sectors) (hp : p ∈ slotsOf dir.sectors) (hdos : toDosFileName name = some dosFileName)
    (he : fatEntry d (firstFreeEntry d) = 0#16) (hge : 2 ≤ firstFreeEntry d) (hunused : ¬ IsLive d p.1 p.2)
    (hname : ¬ LiveName d dir.sectors dosFileName) : Harmless d d' dir.sectors name := by
  have hkept : ∀ q ∈ slotsOf dir.sectors, q ≠ p → ¬ Changed d d' q := by
    intro q hq hne
    obtain ⟨hs, hfree⟩ := hdir.sector (mem_slotsOf.mp hq).1
    exact h.not_changed hs (hfree _ hge he) hne
  have hone : ∀ q ∈ slotsOf dir.sectors, Changed d d' q → q = p := fun q hq hchanged =>
    by_contra fun hne => hkept q hq hne hchanged
  -- another slot in use would have had the name before
  have hother : ∀ q ∈ slotsOf dir.sectors, q ≠ p → IsLive d' q.1 q.2 →
      entryName (d'.sectors q.1) q.2 ≠ entryName (d'.sectors p.1) p.2 := by
    intro q hq hne hq' heq
    rw [h.name, entryName_of_not_changed (hkept q hq hne)] at heq
    exact hname ⟨q, hq, (isLive_of_not_changed (hkept q hq hne)).mp hq', heq⟩
  refine ⟨?_, ?_, fun s hs hout hne => ?_, ?_, fun hall => absurd (hall _ hdos) hname⟩
  · intro q hq r hr hq' hr'
    rw [hone q hq hq', hone r hr hr']
  · intro q hq hq'
    rw [hone q hq hq']
    exact hunused
  · refine ⟨firstFreeEntry d, he, by_contra fun hcluster => hne ?_⟩
    have hsector : s ≠ p.1 := fun heq => hout (heq ▸ (mem_slotsOf.mp hp).1)
    exact h.sectors s hs hsector fun _ => hcluster
  · intro q hq r hr hq' hr' heq
    by_cases hqp : q = p
    · by_cases hrp : r = p
      · rw [hqp, hrp]
      · rw [hqp] at heq
        exact absurd heq.symm (hother r hr hrp hr')
    · by_cases hrp : r = p
      · rw [hrp] at heq
        exact absurd heq (hother q hq hqp hq')
      · have hkq := hkept q hq hqp
        have hkr := hkept r hr hrp
        rw [entryName_of_not_changed hkq, entryName_of_not_changed hkr] at heq
        exact hlive q hq r hr ((isLive_of_not_changed hkq).mp hq') ((isLive_of_not_changed hkr).mp hr') heq

theorem Puts.not_harmless (h : Puts d d' dosFileName flags p) (hp : p ∈ slotsOf sectors)
    (hdos : toDosFileName name = some dosFileName) (hzero : entryFirstCluster (d.sectors p.1) p.2 = 0#16)
    (hge : 2 ≤ firstFreeEntry d) (hwrong : IsLive d p.1 p.2 ∨ LiveName d sectors dosFileName) :
    ¬ Harmless d d' sectors name := by
  intro hharmless
  have hchanged := h.changed hzero hge
  rcases hwrong with hlive | hname
  · exact hharmless.unused p hp hchanged hlive
  · obtain ⟨k, -, hk⟩ := hchanged
    refine hk ?_
    rw [hharmless.same fun dosFileName' hdos' => ?_]
    rw [hdos] at hdos'
    exact Option.some.inj hdos' ▸ hname

/-- The slot where the search stops is one of the directory's. -/
theorem mem_of_firstStop (h : firstStop d sectors dosFileName = some p) : p ∈ slotsOf sectors :=
  List.mem_of_find?_eq_some h

/-- A slot of a directory gets the new entry if some entry of the table is 0. -/
theorem putEntry_spec (hdir : dir.IsOpen d f) (hp : p ∈ slotsOf dir.sectors)
    (hdos : toDosFileName name = some dosFileName) (flags : Flags) :
    (putEntry d dosFileName flags p = d ∧ ∀ c, 2 ≤ c → c < 0xFF0 → fatEntry d c ≠ 0#16) ∨
      (2 ≤ firstFreeEntry d ∧ firstFreeEntry d < 0xFF0 ∧ fatEntry d (firstFreeEntry d) = 0#16 ∧
        Puts d (putEntry d dosFileName flags p) dosFileName flags p) := by
  obtain ⟨hs, hi⟩ := mem_slotsOf.mp hp
  obtain ⟨hge, hfree⟩ := hdir.sector hs
  obtain ⟨hnone, hall⟩ | ⟨hle, hlt, hzero, -⟩ := firstFreeEntry_cases d
  · left
    rw [putEntry, occupyFreeCluster_of_none hnone]
    exact ⟨rfl, hall⟩
  · exact .inr ⟨hle, hlt, hzero, puts_putEntry hlt (length_toDosFileName hdos) hge hi (hfree _ hle hzero)⟩

theorem NeverOverwrites.not_clobbers (h : NeverOverwrites d dir f name flags) (hdir : dir.IsOpen d f) :
    ¬ Clobbers d dir.sectors name := by
  rintro ⟨dosFileName, p, hdos, hstop, hzero, ⟨c, hle, hlt, hfree⟩, hwrong⟩
  obtain ⟨fuel, d', hd', hharmless⟩ := h default
  obtain ⟨fuel', hcreate⟩ := create_eq hdir default name flags
  have hdisk : some d' = some (putEntry d dosFileName flags p) := by
    rw [← hd' _ (le_max_left fuel fuel'), hcreate _ (le_max_right fuel fuel'), hdos, Option.elim_some, created, hstop,
      Option.elim_some, if_pos hzero]
  obtain rfl := Option.some.inj hdisk
  have hp := mem_of_firstStop hstop
  obtain ⟨-, hall⟩ | ⟨hge, -, -, hputs⟩ := putEntry_spec hdir hp hdos flags
  · exact hall c hle hlt hfree
  · exact hputs.not_harmless hp hdos hzero hge hwrong hharmless

/-- A creation leaves all slots in use alone exactly when it does not clobber one, or double a name. -/
theorem neverOverwrites_iff (d : Floppy) (dir : Directory) (f : FILE) (name : List Byte) (flags : Flags)
    (hdir : dir.IsOpen d f) (hlive : DistinctLive d dir.sectors) :
    NeverOverwrites d dir f name flags ↔ ¬ Clobbers d dir.sectors name := by
  constructor
  · exact fun h => h.not_clobbers hdir
  · intro hclobbers junk
    obtain ⟨fuel, hcreate⟩ := create_eq hdir junk name flags
    refine ⟨fuel, _, hcreate, ?_⟩
    cases hdos : toDosFileName name with
    | none => exact harmless_refl hlive name
    | some dosFileName =>
      rw [Option.elim_some, created]
      cases hstop : firstStop d dir.sectors dosFileName with
      | none => exact harmless_refl hlive name
      | some p =>
        rw [Option.elim_some]
        split
        · next hzero =>
          have hp := mem_of_firstStop hstop
          obtain ⟨heq, -⟩ | ⟨hge, hlt, hfree, hputs⟩ := putEntry_spec hdir hp hdos flags
          · rw [heq]
            exact harmless_refl hlive name
          · have hright : ¬ (IsLive d p.1 p.2 ∨ LiveName d dir.sectors dosFileName) := fun hwrong =>
              hclobbers ⟨dosFileName, p, hdos, hstop, hzero, ⟨_, hge, hlt, hfree⟩, hwrong⟩
            exact hputs.harmless hdir hlive hp hdos hfree hge (fun h => hright (.inl h)) fun h => hright (.inr h)
        · exact harmless_refl hlive name

/-- A disk with nothing but one slot in use is one with different names. -/
theorem distinctLive_of_one (h : ∀ q ∈ slotsOf sectors, IsLive d q.1 q.2 → q = p) : DistinctLive d sectors :=
  fun q hq r hr hq' hr' _ => (h q hq hq').trans (h r hr hr').symm

private def rootHandle : FILE := { (default : FILE) with flags := .directory, name := [backslash] }

theorem neverOverwrites_iff_blank : NeverOverwrites ⟨fun _ _ => 0#8, []⟩ .root rootHandle [0x46#8] .file := by
  have hnone : ∀ p : Nat × Nat, ¬ IsLive ⟨fun _ _ => 0#8, []⟩ p.1 p.2 := fun _ hlive => hlive.2 rfl
  refine
    (neverOverwrites_iff _ .root rootHandle [0x46#8] .file ⟨rfl, .inl rfl⟩ fun p _ _ _ hp => absurd hp (hnone p)).mpr ?_
  rintro ⟨_, p, -, -, -, -, hlive | ⟨q, -, hlive, -⟩⟩
  · exact hnone p hlive
  · exact hnone q hlive

/-- An empty file `E` is all there is in the root directory. It gives its slot to `f`. -/
theorem not_neverOverwrites : ∃ d : Floppy, Directory.root.IsOpen d rootHandle ∧ DistinctLive d rootSectors ∧
    ¬ NeverOverwrites d .root rootHandle [0x46#8] .file := by
  let d : Floppy := ⟨fun s k =>
    if s = 19 ∧ k < 32 then setEntry (fun _ => 0#8) 0 (dosName [0x45#8] []) 0#8 0 k else 0#8, []⟩
  have hopen : Directory.root.IsOpen d rootHandle := ⟨rfl, .inl rfl⟩
  refine ⟨d, hopen, distinctLive_of_one (p := (19, 0)) (by decide +kernel), fun h => h.not_clobbers hopen ?_⟩
  exact ⟨dosName [0x46#8] [], (19, 0), rfl, by decide +kernel, by decide +kernel,
    ⟨2, by decide, by decide, by decide +kernel⟩,
    .inl (by decide +kernel)⟩

end Akos.Fat12
