import Mathlib.Data.Nat.Find
import Akos.Lib.Rotation

/-!
# Who comes to the head first

A queue that is rotated for ever, and the order in which its entries come to the head. An entry with a smaller
key than another may be left out between two turns of that other at the head, and this is decided by the order
of three entries in the queue.
-/

namespace Rotation

variable {α : Type*} {key : α → Nat} {x y a b c : α} {l t q : List α}

theorem mem_insertAfter : a ∈ insertAfter key x l ↔ a = x ∨ a ∈ l := by
  rw [(insertAfter_perm key x l).mem_iff, List.mem_cons]

theorem sublist_insertAfter (x : α) (l : List α) : l.Sublist (insertAfter key x l) := by
  induction l with
  | nil => exact List.nil_sublist _
  | cons y l ih =>
    by_cases h : key y ≤ key x
    · rw [insertAfter_cons_of_le key h]
      exact ih.cons_cons y
    · rw [insertAfter_cons_of_lt key (Nat.not_le.mp h)]
      exact (List.sublist_cons_self x l).cons_cons y

/-! ### Three entries out of order -/

/-- There are three entries in a row such that the second has the largest key and the third the smallest. -/
def Tangled (key : α → Nat) (q : List α) : Prop :=
  ∃ a b c, [a, b, c].Sublist q ∧ key c < key a ∧ key a < key b

/-- The head will be tangled with entries behind it, or these are tangled among themselves. -/
def Overtakes (key : α → Nat) (x : α) (t : List α) : Prop :=
  ∃ a b c, [a, b, c].Sublist t ∧
    (key c < key a ∧ key a < key b ∨ key c < key x ∧ key x < key a ∧ key x < key b)

theorem Tangled.mono (h : Tangled key l) (hsub : l.Sublist q) : Tangled key q := by
  obtain ⟨a, b, c, habc, hkeys⟩ := h
  exact ⟨a, b, c, habc.trans hsub, hkeys⟩

theorem Overtakes.mono (h : Overtakes key x l) (hsub : l.Sublist t) : Overtakes key x t := by
  obtain ⟨a, b, c, habc, hkeys⟩ := h
  exact ⟨a, b, c, habc.trans hsub, hkeys⟩

theorem Overtakes.tangled (h : Overtakes key x t) : Tangled key (x :: t) := by
  obtain ⟨a, b, c, habc, ⟨hca, hab⟩ | ⟨hcx, -, hxb⟩⟩ := h
  · exact ⟨a, b, c, habc.cons x, hca, hab⟩
  · exact ⟨x, b, c, ((List.sublist_cons_self a [b, c]).trans habc).cons_cons x, hcx, hxb⟩

/-- What comes after an entry of a larger key stays behind the one that is put back. -/
theorem cons_sublist_insertAfter (h : (a :: l).Sublist t) (hlt : key x < key a) :
    (x :: l).Sublist (insertAfter key x t) := by
  induction t with
  | nil => cases h
  | cons y t ih =>
    by_cases hy : key y ≤ key x
    · rw [insertAfter_cons_of_le key hy]
      rcases List.sublist_cons_iff.mp h with h | ⟨r, heq, -⟩
      · exact (ih h).cons y
      · obtain ⟨rfl, -⟩ := List.cons.inj heq
        exact absurd hlt (Nat.not_lt.mpr hy)
    · rw [insertAfter_cons_of_lt key (Nat.not_le.mp hy)]
      have htail : l.Sublist t := by
        rcases List.sublist_cons_iff.mp h with h | ⟨r, heq, hr⟩
        · exact (List.sublist_cons_self a l).trans h
        · obtain ⟨-, rfl⟩ := List.cons.inj heq
          exact hr
      exact (htail.cons_cons x).cons y

/-- Two entries in a row after one was put back: both were there, or the one put back is the first, behind one of
a larger key, or it is the second. -/
theorem pair_sublist_insertAfter (h : [a, b].Sublist (insertAfter key x t)) :
    [a, b].Sublist t ∨ (a = x ∧ ∃ m, key x < key m ∧ [m, b].Sublist t) ∨ b = x := by
  induction t with
  | nil =>
    have hlen := h.length_le
    simp at hlen
  | cons y t ih =>
    by_cases hy : key y ≤ key x
    · rw [insertAfter_cons_of_le key hy] at h
      rcases List.sublist_cons_iff.mp h with h | ⟨r, heq, hr⟩
      · rcases ih h with h | ⟨rfl, m, hm, hsub⟩ | rfl
        · exact .inl (h.cons y)
        · exact .inr (.inl ⟨rfl, m, hm, hsub.cons y⟩)
        · exact .inr (.inr rfl)
      · obtain ⟨rfl, rfl⟩ := List.cons.inj heq
        rcases mem_insertAfter.mp (List.singleton_sublist.mp hr) with rfl | hb
        · exact .inr (.inr rfl)
        · exact .inl ((List.singleton_sublist.mpr hb).cons_cons a)
    · rw [insertAfter_cons_of_lt key (Nat.not_le.mp hy)] at h
      have hlt := Nat.not_le.mp hy
      rcases List.sublist_cons_iff.mp h with h | ⟨r, heq, hr⟩
      · rcases List.sublist_cons_iff.mp h with h | ⟨r, heq, hr⟩
        · exact .inl (h.cons y)
        · obtain ⟨rfl, rfl⟩ := List.cons.inj heq
          exact .inr (.inl ⟨rfl, y, hlt, hr.cons_cons y⟩)
      · obtain ⟨rfl, rfl⟩ := List.cons.inj heq
        rcases List.mem_cons.mp (List.singleton_sublist.mp hr) with rfl | hb
        · exact .inr (.inr rfl)
        · exact .inl ((List.singleton_sublist.mpr hb).cons_cons a)

/-- After a rotation there is a tangle exactly if there was one behind the head or the head overtakes. -/
theorem tangled_insertAfter_iff : Tangled key (insertAfter key x t) ↔ Overtakes key x t := by
  constructor
  · intro h
    induction t with
    | nil =>
      obtain ⟨a, b, c, habc, -⟩ := h
      have hlen := habc.length_le
      simp at hlen
    | cons y t ih =>
      obtain ⟨a, b, c, habc, hca, hab⟩ := h
      by_cases hy : key y ≤ key x
      · rw [insertAfter_cons_of_le key hy] at habc
        rcases List.sublist_cons_iff.mp habc with habc | ⟨r, heq, hr⟩
        · exact (ih ⟨a, b, c, habc, hca, hab⟩).mono (List.sublist_cons_self y t)
        obtain ⟨rfl, rfl⟩ := List.cons.inj heq
        rcases pair_sublist_insertAfter hr with hbc | ⟨rfl, m, hm, hmc⟩ | rfl
        · exact ⟨a, b, c, hbc.cons_cons a, .inl ⟨hca, hab⟩⟩
        · exact ⟨a, m, c, hmc.cons_cons a, .inl ⟨hca, hab.trans hm⟩⟩
        · exact absurd hca (Nat.not_lt.mpr hy)
      · rw [insertAfter_cons_of_lt key (Nat.not_le.mp hy)] at habc
        have hlt := Nat.not_le.mp hy
        rcases List.sublist_cons_iff.mp habc with habc | ⟨r, heq, hr⟩
        · rcases List.sublist_cons_iff.mp habc with habc | ⟨r, heq, hr⟩
          · exact ⟨a, b, c, habc.cons y, .inl ⟨hca, hab⟩⟩
          · obtain ⟨rfl, rfl⟩ := List.cons.inj heq
            exact ⟨y, b, c, hr.cons_cons y, .inr ⟨hca, hlt, hab⟩⟩
        · obtain ⟨rfl, rfl⟩ := List.cons.inj heq
          rcases List.sublist_cons_iff.mp hr with hr | ⟨r, heq, -⟩
          · exact ⟨a, b, c, hr.cons_cons a, .inl ⟨hca, hab⟩⟩
          · obtain ⟨rfl, -⟩ := List.cons.inj heq
            omega
  · intro h
    obtain ⟨a, b, c, habc, hkeys⟩ := h
    rcases hkeys with ⟨hca, hab⟩ | ⟨hcx, hxa, hxb⟩
    · exact ⟨a, b, c, habc.trans (sublist_insertAfter x t), hca, hab⟩
    · exact ⟨x, b, c, cons_sublist_insertAfter habc hxa, hcx, hxb⟩

/-- A rotation makes no tangle. -/
theorem Tangled.of_rotate (h : Tangled key (rotate key q)) : Tangled key q := by
  cases q with
  | nil => exact h
  | cons x t => exact (tangled_insertAfter_iff.mp h).tangled

/-! ### The heads of a run -/

/-- The queue after a number of rotations. -/
def rotations (key : α → Nat) (q : List α) (n : Nat) : List α := (rotate key)^[n] q

theorem rotations_succ (q : List α) (n : Nat) : rotations key q (n + 1) = rotations key (rotate key q) n := rfl

theorem rotations_succ' (q : List α) (n : Nat) : rotations key q (n + 1) = rotate key (rotations key q n) :=
  Function.iterate_succ_apply' _ n q

theorem rotations_add (q : List α) (m n : Nat) : rotations key q (m + n) = rotations key (rotations key q m) n := by
  induction n with
  | zero => rfl
  | succ n ih => rw [← Nat.add_assoc, rotations_succ', ih, rotations_succ']

theorem rotations_perm (q : List α) (n : Nat) : (rotations key q n).Perm q := by
  induction n with
  | zero => exact List.Perm.refl _
  | succ n ih =>
    rw [rotations_succ']
    exact (rotate_perm key _).trans ih

theorem tangled_rotations {n : Nat} (h : Tangled key (rotations key q n)) : Tangled key q := by
  induction n with
  | zero => exact h
  | succ n ih =>
    rw [rotations_succ'] at h
    exact ih h.of_rotate

/-- Entries keep their order until the first of them is at the head. -/
theorem sublist_rotations {n : Nat} (h : (a :: l).Sublist q)
    (hfirst : ∀ k < n, (rotations key q k).head? ≠ some a) : (a :: l).Sublist (rotations key q n) := by
  induction n with
  | zero => exact h
  | succ n ih =>
    have hsub := ih fun k hk => hfirst k (Nat.lt_succ_of_lt hk)
    have hne := hfirst n (Nat.lt_succ_self n)
    rw [rotations_succ']
    cases hq : rotations key q n with
    | nil => rwa [hq] at hsub
    | cons x t =>
      rw [hq] at hsub hne
      rcases List.sublist_cons_iff.mp hsub with hsub | ⟨r, heq, -⟩
      · exact hsub.trans (sublist_insertAfter x t)
      · obtain ⟨rfl, -⟩ := List.cons.inj heq
        exact absurd rfl hne

/-- Of two entries the one ahead is at the head first. -/
theorem head_of_ahead (hnodup : q.Nodup) (h : [a, b].Sublist q) {n : Nat}
    (hhead : (rotations key q n).head? = some b) : ∃ k < n, (rotations key q k).head? = some a := by
  by_contra hnone
  have hsub := sublist_rotations h fun k hk heq => hnone ⟨k, hk, heq⟩
  have hnodup' : (rotations key q n).Nodup := (rotations_perm q n).nodup_iff.mpr hnodup
  obtain ⟨t, ht⟩ := List.head?_eq_some_iff.mp hhead
  rw [ht] at hsub hnodup'
  have hmem : b ∈ t := by
    rcases List.sublist_cons_iff.mp hsub with hsub | ⟨r, heq, hr⟩
    · exact hsub.subset (List.mem_cons_of_mem _ List.mem_cons_self)
    · obtain ⟨-, rfl⟩ := List.cons.inj heq
      exact hr.subset List.mem_cons_self
  exact (List.nodup_cons.mp hnodup').1 hmem

theorem rotations_of_run [DecidableEq α] {n : Nat} {r : List α}
    (h : run key (fun z => if z = a then .stop else .keep) n q = some r) : ∃ k, r = rotations key q k := by
  induction n generalizing q with
  | zero => cases h
  | succ n ih =>
    rw [run] at h
    cases hrot : rotate key q with
    | nil =>
      rw [hrot] at h
      cases h
    | cons x t =>
      rw [hrot] at h
      by_cases hx : x = a
      · simp only [if_pos hx, Option.some.injEq] at h
        exact ⟨1, by rw [← h, ← hrot]; rfl⟩
      · simp only [if_neg hx] at h
        obtain ⟨k, hk⟩ := ih h
        exact ⟨k + 1, by rw [hk, rotations_succ, hrot]⟩

/-- Every entry comes to the head. -/
theorem exists_head (hmem : a ∈ q) : ∃ n, (rotations key q n).head? = some a := by
  classical
  obtain ⟨judge, hjudge⟩ : ∃ judge : α → Verdict, judge = fun z => if z = a then .stop else .keep := ⟨_, rfl⟩
  have hstop : judge a = .stop := by
    rw [hjudge]
    exact if_pos rfl
  obtain ⟨n, r, hrun⟩ : Ends key judge q := ends_of_mem hstop hmem
  rw [hjudge] at hrun
  obtain ⟨⟨x, xs, rfl, hx⟩, -⟩ := run_spec hrun
  obtain ⟨k, hk⟩ := rotations_of_run hrun
  have heq : x = a := by
    by_contra hne
    rw [if_neg hne] at hx
    cases hx
  exact ⟨k, by rw [← hk, heq]; rfl⟩

/-! ### Nobody is left out -/

/-- Between an entry's turn at the head and its next one, every entry of a smaller key has a turn. The turns are
counted from the first rotation on. -/
def Fair (key : α → Nat) (q : List α) : Prop :=
  ∀ i j a b, 0 < i → i < j → (rotations key q i).head? = some a → (rotations key q j).head? = some a →
    (∀ k, i < k → k < j → (rotations key q k).head? ≠ some a) → b ∈ q → key b < key a →
      ∃ k, i < k ∧ k < j ∧ (rotations key q k).head? = some b

/-- At the head of a queue without tangles an entry is put back behind those of smaller keys. -/
theorem pair_sublist_rotate (h : ¬ Tangled key (x :: t)) (hmem : b ∈ t) (hlt : key b < key x) :
    [b, x].Sublist (insertAfter key x t) := by
  induction t with
  | nil => cases hmem
  | cons y t ih =>
    by_cases hy : key y ≤ key x
    · rw [insertAfter_cons_of_le key hy]
      rcases List.mem_cons.mp hmem with rfl | hmem
      · exact (List.singleton_sublist.mpr (mem_insertAfter.mpr (.inl rfl))).cons_cons b
      · refine (ih (fun htangle => h (htangle.mono ?_)) hmem).cons y
        exact (List.sublist_cons_self y t).cons_cons x
    · refine absurd ⟨x, y, b, ?_, hlt, Nat.not_le.mp hy⟩ h
      rcases List.mem_cons.mp hmem with rfl | hmem
      · exact absurd hlt.le hy
      · exact ((List.singleton_sublist.mpr hmem).cons_cons y).cons_cons x

theorem fair_of_not_tangled (hnodup : q.Nodup) (h : ¬ Tangled key (rotate key q)) : Fair key q := by
  intro i j a b hi hij hai haj _ hb hlt
  obtain ⟨i, rfl⟩ := Nat.exists_eq_add_one.mpr hi
  have hclean : ¬ Tangled key (rotations key q (i + 1)) := fun htangle => h (tangled_rotations htangle)
  obtain ⟨t, ht⟩ := List.head?_eq_some_iff.mp hai
  have hperm : (rotations key q (i + 1)).Perm q := rotations_perm q (i + 1)
  have hmem : b ∈ t := by
    have hmem := hperm.symm.subset hb
    rw [ht] at hmem
    rcases List.mem_cons.mp hmem with rfl | hmem
    · exact absurd hlt (Nat.lt_irrefl _)
    · exact hmem
  have hsub : [b, a].Sublist (rotations key q (i + 1 + 1)) := by
    rw [rotations_succ', ht]
    exact pair_sublist_rotate (ht ▸ hclean) hmem hlt
  have hnodup' : (rotations key q (i + 1 + 1)).Nodup := (rotations_perm q _).nodup_iff.mpr hnodup
  rw [show j = i + 1 + 1 + (j - (i + 2)) by omega, rotations_add] at haj
  obtain ⟨k, hk, hhead⟩ := head_of_ahead hnodup' hsub haj
  rw [← rotations_add] at hhead
  exact ⟨i + 1 + 1 + k, by omega, by omega, hhead⟩

/-- Of three tangled entries the first has two turns before the last has one. -/
theorem not_tangled_of_fair (hnodup : q.Nodup) (h : Fair key q) : ¬ Tangled key (rotate key q) := by
  classical
  intro htangled
  obtain ⟨a, b, c, habc, hca, hab⟩ := htangled
  have hmem : ∀ z ∈ [a, b, c], ∀ n, z ∈ rotations key q n := fun z hz n =>
    (rotations_perm q n).symm.subset ((rotate_perm key q).subset (habc.subset hz))
  have hnodups : ∀ n, (rotations key q n).Nodup := fun n => (rotations_perm q n).nodup_iff.mpr hnodup
  have ha : a ∈ [a, b, c] := List.mem_cons_self
  -- the first turn of the first entry
  have hfirst : ∃ n, (rotations key (rotate key q) n).head? = some a := exists_head (hmem a ha 1)
  have hturn := Nat.find_spec hfirst
  have hkept := sublist_rotations habc fun k hk => Nat.find_min hfirst hk
  obtain ⟨i, hi⟩ : ∃ i, i = Nat.find hfirst := ⟨_, rfl⟩
  rw [← hi] at hturn hkept
  obtain ⟨t, ht⟩ := List.head?_eq_some_iff.mp hturn
  rw [← rotations_succ] at hkept ht hturn
  rw [ht] at hkept
  have hbc : [b, c].Sublist t := by
    rcases List.sublist_cons_iff.mp hkept with hkept | ⟨r, heq, hr⟩
    · exact (List.sublist_cons_self a [b, c]).trans hkept
    · obtain ⟨-, rfl⟩ := List.cons.inj heq
      exact hr
  -- it is put back before the last entry
  have hahead : [a, c].Sublist (rotations key q (i + 2)) := by
    rw [rotations_succ', ht]
    exact cons_sublist_insertAfter hbc hab
  -- its next turn
  have hnext : ∃ n, (rotations key (rotations key q (i + 2)) n).head? = some a := exists_head (hmem a ha (i + 2))
  have hturn' := Nat.find_spec hnext
  obtain ⟨d, hd⟩ : ∃ d, d = Nat.find hnext := ⟨_, rfl⟩
  have hbefore : ∀ k < d, (rotations key (rotations key q (i + 2)) k).head? ≠ some a := fun k hk =>
    Nat.find_min hnext (hd ▸ hk)
  rw [← hd, ← rotations_add] at hturn'
  have hlater : ∀ k, i + 1 < k → k < i + 2 + d → ∃ m, m < d ∧ rotations key q k
      = rotations key (rotations key q (i + 2)) m := fun k hik hkd =>
    ⟨k - (i + 2), by omega, by rw [← rotations_add]; congr 1; omega⟩
  obtain ⟨k, hik, hkj, hhead⟩ := h (i + 1) (i + 2 + d) a c (by omega) (by omega) hturn hturn'
    (fun k hik hkj heq => by
      obtain ⟨m, hm, hrot⟩ := hlater k hik hkj
      exact hbefore m hm (hrot ▸ heq))
    (hmem c (by simp) 0) hca
  obtain ⟨m, hm, hrot⟩ := hlater k hik hkj
  rw [hrot] at hhead
  obtain ⟨n, hn, hturn''⟩ := head_of_ahead (hnodups (i + 2)) hahead hhead
  exact hbefore n (hn.trans hm) hturn''

/-- No entry is left out exactly when the head overtakes nobody and nothing behind it is tangled. -/
theorem fair_iff (hnodup : (x :: t).Nodup) : Fair key (x :: t) ↔ ¬ Overtakes key x t := by
  rw [← tangled_insertAfter_iff]
  exact ⟨not_tangled_of_fair hnodup, fair_of_not_tangled hnodup⟩

end Rotation
