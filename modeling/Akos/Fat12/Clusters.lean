import Mathlib.Data.List.GetD
import Mathlib.Data.List.Nodup
import Akos.Fat12.Entries

/-!
# Chains and free clusters

The chain of a file is a list of data clusters, each entry of which is the next cluster and the last of which
marks the end. A free cluster is taken by marking its entry as an end, and put at the end of a chain by setting
the entry in front.
-/

namespace Akos.Fat12

variable {d d' : Floppy} {c c' e s k n : Nat} {cs new rest : List Nat}

/-- The clusters that have a sector on the disk. -/
def DataCluster (c : Nat) : Prop := 2 ≤ c ∧ c < 2849

instance (c : Nat) : Decidable (DataCluster c) := inferInstanceAs (Decidable (_ ∧ _))

/-- The clusters of a file, in order. -/
structure Chain (d : Floppy) (cs : List Nat) : Prop where
  ne_nil : cs ≠ []
  data : ∀ c ∈ cs, DataCluster c
  nodup : cs.Nodup
  next : ∀ i, i + 1 < cs.length → (fatEntry d (cs.getD i 0)).toNat = cs.getD (i + 1) 0
  last : 0xFF8 ≤ (fatEntry d (cs.getD (cs.length - 1) 0)).toNat

/-- The free data clusters, lowest first. -/
def freeClusters (d : Floppy) : List Nat := (List.range' 2 2847).filter fun c => fatEntry d c = 0#16

theorem mem_freeClusters : c ∈ freeClusters d ↔ DataCluster c ∧ fatEntry d c = 0#16 := by
  rw [freeClusters, List.mem_filter, List.mem_range'_1, decide_eq_true_iff]
  rfl

theorem freeClusters_nodup : (freeClusters d).Nodup := List.Nodup.filter _ (List.nodup_range')

theorem freeClusters_congr (h : ∀ c, DataCluster c → fatEntry d' c = fatEntry d c) :
    freeClusters d' = freeClusters d := by
  refine List.filter_congr fun c hc => ?_
  rw [h c (List.mem_range'_1.mp hc)]

/-! ### Chains -/

namespace Chain

theorem length_pos (h : Chain d cs) : 0 < cs.length := List.length_pos_iff.mpr h.ne_nil

theorem getD_mem {i : Nat} (hi : i < cs.length) : cs.getD i 0 ∈ cs := by
  rw [List.getD_eq_getElem _ _ hi]
  exact List.getElem_mem hi

theorem getD_injective (h : Chain d cs) {i j : Nat} (hi : i < cs.length) (hj : j < cs.length)
    (heq : cs.getD i 0 = cs.getD j 0) : i = j := by
  rw [List.getD_eq_getElem _ _ hi, List.getD_eq_getElem _ _ hj] at heq
  exact (List.Nodup.getElem_inj_iff h.nodup).mp heq

/-- The entry of a cluster of a chain is not 0. -/
theorem entry_ne_zero (h : Chain d cs) (hc : c ∈ cs) : fatEntry d c ≠ 0#16 := by
  obtain ⟨i, hi, rfl⟩ := List.mem_iff_getElem.mp hc
  have hget : cs.getD i 0 = cs[i] := List.getD_eq_getElem _ _ hi
  intro hzero
  rw [← hget] at hzero
  by_cases hlast : i + 1 < cs.length
  · have hnext := h.next i hlast
    have hdata := h.data _ (getD_mem hlast)
    rw [hzero] at hnext
    rw [← hnext] at hdata
    exact absurd hdata.1 (by decide)
  · have hend := h.last
    rw [show cs.length - 1 = i by omega, hzero] at hend
    exact absurd hend (by decide)

theorem not_mem_freeClusters (h : Chain d cs) (hc : c ∈ cs) : c ∉ freeClusters d :=
  fun hfree => h.entry_ne_zero hc (mem_freeClusters.mp hfree).2

/-- A chain depends on the entries of its clusters only. -/
theorem congr (h : Chain d cs) (hentry : ∀ c ∈ cs, fatEntry d' c = fatEntry d c) : Chain d' cs where
  ne_nil := h.ne_nil
  data := h.data
  nodup := h.nodup
  next i hi := by
    rw [hentry _ (getD_mem (by omega))]
    exact h.next i hi
  last := by
    have hpos := h.length_pos
    rw [hentry _ (getD_mem (by omega))]
    exact h.last

/-- A cluster outside is put at the end. -/
theorem snoc (h : Chain d cs) (hdata : DataCluster e) (hnew : e ∉ cs)
    (hlink : (fatEntry d' (cs.getD (cs.length - 1) 0)).toNat = e) (hend : 0xFF8 ≤ (fatEntry d' e).toNat)
    (hentry : ∀ c ∈ cs, c ≠ cs.getD (cs.length - 1) 0 → fatEntry d' c = fatEntry d c) : Chain d' (cs ++ [e]) where
  ne_nil := List.append_ne_nil_of_left_ne_nil h.ne_nil _
  data c hc := by
    rcases List.mem_append.mp hc with hc | hc
    · exact h.data c hc
    · rwa [List.mem_singleton.mp hc]
  nodup := List.nodup_append.mpr ⟨h.nodup, List.nodup_singleton e, fun a ha b hb hab =>
    hnew (List.mem_singleton.mp hb ▸ hab ▸ ha)⟩
  next i hi := by
    have hpos := h.length_pos
    rw [List.length_append, List.length_singleton] at hi
    rw [List.getD_append _ _ _ _ (by omega)]
    by_cases hlast : i + 1 < cs.length
    · have hne : cs.getD i 0 ≠ cs.getD (cs.length - 1) 0 := fun heq => by
        have := h.getD_injective (by omega) (by omega) heq
        omega
      rw [List.getD_append _ _ _ _ hlast, hentry _ (getD_mem (by omega)) hne]
      exact h.next i hlast
    · rw [show i = cs.length - 1 by omega, hlink, List.getD_append_right _ _ _ _ (by omega),
        show cs.length - 1 + 1 - cs.length = 0 by omega]
      rfl
  last := by
    rw [List.length_append, List.length_singleton, Nat.add_sub_cancel,
      List.getD_append_right _ _ _ _ (Nat.le_refl _), Nat.sub_self]
    exact hend

end Chain

/-! ### Taking a cluster -/

/-- The scan looks at all entries below 0xFF0. -/
theorem firstFreeEntry_of_none (h : ∀ c, 2 ≤ c → c < 0xFF0 → fatEntry d c ≠ 0#16) : firstFreeEntry d = 0xFF0 := by
  have hnone : ((List.range' 2 (0xFF0 - 2)).find? fun c => fatEntry d c = 0#16) = none := by
    refine List.find?_eq_none.mpr fun c hc => ?_
    obtain ⟨hle, hlt⟩ := List.mem_range'_1.mp hc
    rw [decide_eq_true_iff]
    exact h c hle (by omega)
  rw [firstFreeEntry, hnone]
  rfl

theorem firstFreeEntry_cases (d : Floppy) :
    (firstFreeEntry d = 0xFF0 ∧ ∀ c, 2 ≤ c → c < 0xFF0 → fatEntry d c ≠ 0#16) ∨
    (2 ≤ firstFreeEntry d ∧ firstFreeEntry d < 0xFF0 ∧ fatEntry d (firstFreeEntry d) = 0#16 ∧
      ∀ c, 2 ≤ c → c < firstFreeEntry d → fatEntry d c ≠ 0#16) := by
  by_cases hnone : ∀ c, 2 ≤ c → c < 0xFF0 → fatEntry d c ≠ 0#16
  · exact .inl ⟨firstFreeEntry_of_none hnone, hnone⟩
  right
  rw [firstFreeEntry]
  cases hfind : (List.range' 2 (0xFF0 - 2)).find? fun c => fatEntry d c = 0#16 with
  | none =>
    refine absurd (fun c hle hlt => ?_) hnone
    have hc := List.find?_eq_none.mp hfind c (List.mem_range'_1.mpr ⟨hle, by omega⟩)
    rwa [decide_eq_true_iff] at hc
  | some e =>
    obtain ⟨hzero, i, hi, heq, hbefore⟩ := List.find?_eq_some_iff_getElem.mp hfind
    rw [decide_eq_true_iff] at hzero
    rw [List.length_range'] at hi
    rw [List.getElem_range'] at heq
    rw [Option.getD_some]
    refine ⟨by omega, by omega, hzero, fun c hle hlt => ?_⟩
    have hc := hbefore (c - 2) (by omega)
    rw [List.getElem_range', Bool.not_eq_true', decide_eq_false_iff_not,
      show 2 + 1 * (c - 2) = c by omega] at hc
    exact hc

/-- The first free data cluster is what the scan finds. -/
theorem firstFreeEntry_of_cons (h : freeClusters d = c :: rest) : firstFreeEntry d = c := by
  have hc := mem_freeClusters.mp (h ▸ List.mem_cons_self)
  have hfirst : ∀ c', 2 ≤ c' → c' < c → fatEntry d c' ≠ 0#16 := by
    intro c' hle hlt hzero
    have hmem : c' ∈ freeClusters d := mem_freeClusters.mpr ⟨⟨hle, Nat.lt_trans hlt hc.1.2⟩, hzero⟩
    have hsorted : (freeClusters d).Pairwise (· < ·) := List.Pairwise.filter _ List.pairwise_lt_range'
    rw [h] at hmem hsorted
    rcases List.mem_cons.mp hmem with rfl | hmem
    · exact Nat.lt_irrefl _ hlt
    · exact Nat.lt_asymm hlt (List.rel_of_pairwise_cons hsorted hmem)
  obtain ⟨-, hnone⟩ | ⟨hle, -, hzero, hbefore⟩ := firstFreeEntry_cases d
  · exact absurd hc.2 (hnone c hc.1.1 (Nat.lt_trans hc.1.2 (by decide)))
  · refine Nat.le_antisymm (Nat.le_of_not_lt fun hlt => hbefore c hc.1.1 hlt hc.2)
      (Nat.le_of_not_lt fun hlt => hfirst _ hle hlt hzero)

/-- When no data cluster is free, the scan finds no data cluster. -/
theorem le_firstFreeEntry (h : freeClusters d = []) : 2849 ≤ firstFreeEntry d := by
  obtain ⟨heq, -⟩ | ⟨hle, -, hzero, -⟩ := firstFreeEntry_cases d
  · rw [heq]
    decide
  · refine Nat.le_of_not_lt fun hlt => ?_
    have hmem : firstFreeEntry d ∈ freeClusters d := mem_freeClusters.mpr ⟨⟨hle, hlt⟩, hzero⟩
    rw [h] at hmem
    cases hmem

/-- What is free after a cluster was taken, when no other entry changed from or to 0. -/
theorem freeClusters_of_cons (h : freeClusters d = c :: rest) (hc : fatEntry d' c ≠ 0#16)
    (hothers : ∀ c', c' ≠ c → (fatEntry d' c' = 0#16 ↔ fatEntry d c' = 0#16)) : freeClusters d' = rest := by
  have hfilter : freeClusters d' = (freeClusters d).filter (· ≠ c) := by
    rw [freeClusters, freeClusters, List.filter_filter]
    refine List.filter_congr fun c' _ => ?_
    by_cases heq : c' = c
    · subst heq
      simp [hc]
    · simp [heq, hothers c' heq]
  have hnodup : (c :: rest).Nodup := h ▸ freeClusters_nodup
  rw [hfilter, h, List.filter_cons_of_neg (by simp)]
  refine List.filter_eq_self.mpr fun c' hc' => ?_
  have hne : c' ≠ c := fun heq => (List.nodup_cons.mp hnodup).1 (heq ▸ hc')
  simpa using hne

/-- What `fat12fsys_occupy_free_cluster` does when a data cluster is free: the lowest is taken, and put behind
the cluster that was passed. -/
structure Occupies (d d' : Floppy) (chain e : Nat) : Prop where
  taken : (fatEntry d' e).toNat = 0xFF8
  link : chain ≠ 0 → (fatEntry d' chain).toNat = e
  entries : ∀ c, c ≠ e → (chain ≠ 0 → c ≠ chain) → fatEntry d' c = fatEntry d c
  sectors : ∀ s, 14 ≤ s → d'.sectors s = d.sectors s
  written : ∀ s ∈ d'.written, s ∈ d.written ∨ s ≤ 13

theorem occupies_setFatEntry (he : e < 0xFF0) : Occupies d (setFatEntry d e 0xFF8) 0 e where
  taken := fatEntry_setFatEntry_self (by decide)
  link hzero := absurd rfl hzero
  entries _ hne _ := fatEntry_setFatEntry_of_ne (by decide) hne
  sectors s hs := by
    have hle := fatSector_le he
    exact setFatEntry_sectors (by omega) (by omega)
  written s hs := by
    have hle := fatSector_le he
    rw [setFatEntry_written, List.mem_cons, List.mem_cons] at hs
    rcases hs with rfl | rfl | hs
    · exact .inr (by omega)
    · exact .inr (by omega)
    · exact .inl hs

theorem Occupies.link_entry {chain : Nat} (h : Occupies d d' 0 e) (hchain : chain ≠ 0) (hlt : chain < 0xFF0)
    (hne : chain ≠ e) (he : e < 4096) : Occupies d (setFatEntry d' chain e) chain e where
  taken := by
    rw [fatEntry_setFatEntry_of_ne he hne.symm]
    exact h.taken
  link _ := fatEntry_setFatEntry_self he
  entries c hc hc' := by
    rw [fatEntry_setFatEntry_of_ne he (hc' hchain)]
    exact h.entries c hc fun hzero => absurd rfl hzero
  sectors s hs := by
    have hle := fatSector_le hlt
    rw [setFatEntry_sectors (by omega) (by omega)]
    exact h.sectors s hs
  written s hs := by
    have hle := fatSector_le hlt
    rw [setFatEntry_written, List.mem_cons, List.mem_cons] at hs
    rcases hs with rfl | rfl | hs
    · exact .inr (by omega)
    · exact .inr (by omega)
    · exact h.written s hs

theorem occupyFreeCluster_fst (d : Floppy) (chain : Nat) :
    (fat12fsysOccupyFreeCluster d chain).1 = firstFreeEntry d := by
  unfold fat12fsysOccupyFreeCluster
  dsimp only
  split <;> rfl

/-- The disk when no entry is 0 is the one before. -/
theorem occupyFreeCluster_of_none (h : firstFreeEntry d = 0xFF0) (chain : Nat) :
    fat12fsysOccupyFreeCluster d chain = (0xFF0, d) := by
  unfold fat12fsysOccupyFreeCluster
  dsimp only
  rw [h, if_neg fun hchain => hchain.2 rfl, if_neg (Nat.lt_irrefl _)]

theorem occupies_of_lt (he : firstFreeEntry d < 0xFF0) {chain : Nat} (hlt : chain < 0xFF0)
    (hne : chain ≠ firstFreeEntry d) :
    Occupies d (fat12fsysOccupyFreeCluster d chain).2 chain (firstFreeEntry d) := by
  have htaken := occupies_setFatEntry (d := d) he
  unfold fat12fsysOccupyFreeCluster
  dsimp only
  rw [if_pos he]
  split
  · next hchain => exact htaken.link_entry hchain.1 hlt hne (Nat.lt_trans he (by decide))
  · next hchain =>
    have hzero : chain = 0 := by
      by_contra hne
      exact hchain ⟨hne, Nat.ne_of_lt he⟩
    rw [hzero]
    exact htaken

/-- Two read-modify-writes of 12 bits each: the entry that is taken and the one it is put behind get their new
values, whichever bytes and sectors they share with others, and every other entry keeps its own. -/
theorem occupyFreeCluster_entries {chain : Nat} (hchain : chain = 0 ∨ 2 ≤ chain ∧ fatEntry d chain ≠ 0#16)
    (he : (fat12fsysOccupyFreeCluster d chain).1 < 0xFF0) :
    (fatEntry (fat12fsysOccupyFreeCluster d chain).2 (fat12fsysOccupyFreeCluster d chain).1).toNat = 0xFF8 ∧
      (chain ≠ 0 → (fatEntry (fat12fsysOccupyFreeCluster d chain).2 chain).toNat =
        (fat12fsysOccupyFreeCluster d chain).1) ∧
      ∀ c, c ≠ (fat12fsysOccupyFreeCluster d chain).1 → (chain ≠ 0 → c ≠ chain) →
        fatEntry (fat12fsysOccupyFreeCluster d chain).2 c = fatEntry d c := by
  rw [occupyFreeCluster_fst] at he ⊢
  have hzero : fatEntry d (firstFreeEntry d) = 0#16 := by
    obtain ⟨hnone, -⟩ | ⟨-, -, hzero, -⟩ := firstFreeEntry_cases d
    · exact absurd hnone (Nat.ne_of_lt he)
    · exact hzero
  have hlt : firstFreeEntry d < 4096 := Nat.lt_trans he (by decide)
  obtain rfl | ⟨hge, hentry⟩ := hchain
  · have hdisk : (fat12fsysOccupyFreeCluster d 0).2 = setFatEntry d (firstFreeEntry d) 0xFF8 := by
      unfold fat12fsysOccupyFreeCluster
      dsimp only
      rw [if_neg fun hchain => hchain.1 rfl, if_pos he]
    rw [hdisk]
    exact ⟨fatEntry_setFatEntry_self (by decide), fun hne => absurd rfl hne, fun c hc _ =>
      fatEntry_setFatEntry_of_ne (by decide) hc⟩
  · have hne : chain ≠ firstFreeEntry d := by
      rintro rfl
      exact hentry hzero
    have hchain : chain ≠ 0 := by omega
    have hdisk : (fat12fsysOccupyFreeCluster d chain).2 =
        setFatEntry (setFatEntry d (firstFreeEntry d) 0xFF8) chain (firstFreeEntry d) := by
      unfold fat12fsysOccupyFreeCluster
      dsimp only
      rw [if_pos ⟨hchain, Nat.ne_of_lt he⟩, if_pos he]
    rw [hdisk]
    refine ⟨?_, fun _ => fatEntry_setFatEntry_self hlt, fun c hc hc' => ?_⟩
    · rw [fatEntry_setFatEntry_of_ne hlt hne.symm]
      exact fatEntry_setFatEntry_self (by decide)
    · rw [fatEntry_setFatEntry_of_ne hlt (hc' hchain)]
      exact fatEntry_setFatEntry_of_ne (by decide) hc

theorem occupyFreeCluster_entries_two : ∃ d : Floppy, (fat12fsysOccupyFreeCluster d 2).1 = 3 ∧
    (fatEntry (fat12fsysOccupyFreeCluster d 2).2 3).toNat = 0xFF8 ∧
    (fatEntry (fat12fsysOccupyFreeCluster d 2).2 2).toNat = 3 := by
  let d : Floppy := ⟨fun s k => if s = 1 ∧ k = 3 then 0xF8#8 else if s = 1 ∧ k = 4 then 0x0F#8 else 0#8, []⟩
  have htaken : (fat12fsysOccupyFreeCluster d 2).1 = 3 := by decide +kernel
  have hchain : 2 = 0 ∨ 2 ≤ 2 ∧ fatEntry d 2 ≠ 0#16 := Or.inr ⟨Nat.le_refl 2, by decide +kernel⟩
  have h := occupyFreeCluster_entries hchain (by rw [htaken]; decide)
  rw [htaken] at h
  exact ⟨d, htaken, h.1, h.2.1 (by decide)⟩

namespace Occupies

variable {chain : Nat}

/-- The list of free clusters loses its first one. -/
theorem freeClusters_eq (h : Occupies d d' chain e) (hfree : freeClusters d = e :: rest)
    (hchain : chain ≠ 0 → fatEntry d chain ≠ 0#16) : freeClusters d' = rest := by
  have he := mem_freeClusters.mp (hfree ▸ List.mem_cons_self : e ∈ freeClusters d)
  refine freeClusters_of_cons hfree (fun hzero => ?_) fun c hc => ?_
  · have htaken := h.taken
    rw [hzero] at htaken
    exact absurd htaken (by decide)
  · by_cases hc' : chain ≠ 0 ∧ c = chain
    · obtain ⟨hne, rfl⟩ := hc'
      refine iff_of_false (fun hzero => ?_) (hchain hne)
      have hlink := h.link hne
      rw [hzero] at hlink
      rw [← hlink] at he
      exact absurd he.1.1 (by decide)
    · rw [h.entries c hc fun hne heq => hc' ⟨hne, heq⟩]

/-- The cluster is the new last one of the chain it was put behind. -/
theorem chain_snoc (h : Occupies d d' chain e) (hcs : Chain d cs) (hchain : chain = cs.getD (cs.length - 1) 0)
    (he : e ∈ freeClusters d) : Chain d' (cs ++ [e]) := by
  have hpos := hcs.length_pos
  have hmem : chain ∈ cs := hchain ▸ Chain.getD_mem (by omega)
  have hnew : e ∉ cs := fun hmem => hcs.not_mem_freeClusters hmem he
  have hne : chain ≠ 0 := fun hzero => absurd (hzero ▸ hcs.data _ hmem).1 (by decide)
  refine hcs.snoc (mem_freeClusters.mp he).1 hnew ?_ ?_ fun c hc hc' => ?_
  · rw [← hchain]
    exact h.link hne
  · rw [h.taken]
  · exact h.entries c (fun heq => hnew (heq ▸ hc)) fun _ heq => hc' (heq.trans hchain)

end Occupies

end Akos.Fat12
