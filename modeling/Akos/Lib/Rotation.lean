import Mathlib.Data.List.Basic
import Mathlib.Data.List.MinMax
import Mathlib.Data.List.Perm.Basic

/-!
# Rotating a queue by priority

A queue whose head is taken off and put back behind the first entry of a larger key, or at the end if
there is none. An entry may move away from the head while others overtake it, so no distance to the head
shrinks at every turn. What shrinks is found by looking at a largest key ahead of the entry: it stops
everything put back before it, and once it is the head itself it leaves for good.
-/

namespace Rotation

variable {α : Type*} (key : α → Nat)

/-- Walk past the entries whose key is at most that of `x`, stopping at the last entry at the latest, and
put `x` behind the entry reached. -/
def insertAfter (x : α) : List α → List α
  | [] => [x]
  | [y] => [y, x]
  | y :: z :: rest =>
    if key y ≤ key x then y :: insertAfter x (z :: rest) else y :: x :: z :: rest

/-- Take the head off and put it back. -/
def rotate : List α → List α
  | [] => []
  | x :: xs => insertAfter key x xs

/-- What happens to the head after a rotation. -/
inductive Verdict
  | stop
  | drop
  | keep
  deriving DecidableEq

/-- Rotate until a head is to stop at, dropping the heads that are to go. -/
def run (judge : α → Verdict) : Nat → List α → Option (List α)
  | 0, _ => none
  | n + 1, q =>
    match rotate key q with
    | [] => none
    | x :: xs =>
      match judge x with
      | .stop => some (x :: xs)
      | .drop => run judge n xs
      | .keep => run judge n (x :: xs)

/-! ### Putting an entry back -/

@[simp] theorem insertAfter_nil (x : α) : insertAfter key x [] = [x] := rfl

theorem insertAfter_cons_of_lt {x y : α} (h : key x < key y) (l : List α) :
    insertAfter key x (y :: l) = y :: x :: l := by
  cases l with
  | nil => rfl
  | cons z rest => rw [insertAfter, if_neg (Nat.not_le.mpr h)]

theorem insertAfter_cons_of_le {x y : α} (h : key y ≤ key x) (l : List α) :
    insertAfter key x (y :: l) = y :: insertAfter key x l := by
  cases l with
  | nil => rfl
  | cons z rest => rw [insertAfter, if_pos h]

theorem insertAfter_perm (x : α) (l : List α) : (insertAfter key x l).Perm (x :: l) := by
  induction l with
  | nil => exact List.Perm.refl _
  | cons y l ih =>
    by_cases h : key y ≤ key x
    · rw [insertAfter_cons_of_le key h]
      exact (ih.cons y).trans (List.Perm.swap x y l)
    · rw [insertAfter_cons_of_lt key (Nat.not_le.mp h)]
      exact List.Perm.swap x y l

/-- Nothing is put back before the head. -/
theorem exists_insertAfter_cons (x y : α) (l : List α) :
    ∃ l', insertAfter key x (y :: l) = y :: l' ∧ l'.Perm (x :: l) := by
  by_cases h : key y ≤ key x
  · exact ⟨_, insertAfter_cons_of_le key h l, insertAfter_perm key x l⟩
  · exact ⟨_, insertAfter_cons_of_lt key (Nat.not_le.mp h) l, List.Perm.refl _⟩

theorem insertAfter_append_of_exists {x : α} {a : List α} (h : ∃ z ∈ a, key x < key z) (b : List α) :
    insertAfter key x (a ++ b) = insertAfter key x a ++ b := by
  induction a with
  | nil => simp at h
  | cons y a ih =>
    by_cases hy : key y ≤ key x
    · have htail : ∃ z ∈ a, key x < key z := by
        obtain ⟨z, hz, hlt⟩ := h
        cases List.mem_cons.mp hz with
        | inl heq => exact absurd hlt (by rw [heq]; exact Nat.not_lt.mpr hy)
        | inr hmem => exact ⟨z, hmem, hlt⟩
      rw [List.cons_append, insertAfter_cons_of_le key hy, insertAfter_cons_of_le key hy, ih htail,
        List.cons_append]
    · have hlt := Nat.not_le.mp hy
      rw [List.cons_append, insertAfter_cons_of_lt key hlt, insertAfter_cons_of_lt key hlt,
        List.cons_append, List.cons_append]

theorem insertAfter_append_of_forall {x : α} {a : List α} (h : ∀ z ∈ a, key z ≤ key x) (b : List α) :
    insertAfter key x (a ++ b) = a ++ insertAfter key x b := by
  induction a with
  | nil => rfl
  | cons y a ih =>
    rw [List.cons_append, insertAfter_cons_of_le key (h y List.mem_cons_self),
      ih fun z hz => h z (List.mem_cons_of_mem y hz), List.cons_append]

theorem rotate_perm (q : List α) : (rotate key q).Perm q := by
  cases q with
  | nil => exact List.Perm.refl _
  | cons x xs => exact insertAfter_perm key x xs

/-! ### The entries ahead of another -/

/-- What a rotation makes of the entries ahead of one: their first goes back among them if one of them has
a larger key, and out of their row otherwise. -/
def advance : List α → List α
  | [] => []
  | x :: xs => if ∃ z ∈ xs, key x < key z then insertAfter key x xs else xs

theorem advance_length_le (a : List α) : (advance key a).length ≤ a.length := by
  cases a with
  | nil => exact Nat.le_refl _
  | cons x xs =>
    rw [advance]
    split
    · exact ((insertAfter_perm key x xs).length_eq).le
    · exact Nat.le_succ _

theorem advance_subset (a : List α) : advance key a ⊆ a := by
  cases a with
  | nil => exact List.Subset.refl _
  | cons x xs =>
    rw [advance]
    split
    · exact (insertAfter_perm key x xs).subset
    · exact List.subset_cons_self x xs

/-- A rotation moves the entries ahead of `t` by themselves. -/
theorem exists_rotate_append (x : α) (a : List α) (t : α) (b : List α) :
    ∃ b', rotate key (x :: a ++ t :: b) = advance key (x :: a) ++ t :: b' := by
  rw [List.cons_append, rotate, advance]
  by_cases h : ∃ z ∈ a, key x < key z
  · exact ⟨b, by rw [if_pos h, insertAfter_append_of_exists key h]⟩
  · obtain ⟨b', hb', -⟩ := exists_insertAfter_cons key x t b
    have hall : ∀ z ∈ a, key z ≤ key x := fun z hz => Nat.not_lt.mp fun hlt => h ⟨z, hz, hlt⟩
    exact ⟨b', by rw [if_neg h, insertAfter_append_of_forall key hall, hb']⟩

/-- Within the entries ahead of one, those ahead of another move by themselves too. -/
theorem exists_advance_append (x : α) (a : List α) (t : α) (b : List α) :
    ∃ b', advance key (x :: a ++ t :: b) = advance key (x :: a) ++ t :: b' := by
  by_cases hin : ∃ z ∈ a ++ t :: b, key x < key z
  · obtain ⟨b', hb'⟩ := exists_rotate_append key x a t b
    refine ⟨b', ?_⟩
    rw [List.cons_append, advance, if_pos hin]
    exact hb'
  · have hout : ¬ ∃ z ∈ a, key x < key z := fun ⟨z, hz, hlt⟩ =>
      hin ⟨z, List.mem_append_left _ hz, hlt⟩
    exact ⟨b, by rw [List.cons_append, advance, if_neg hin, advance, if_neg hout]⟩

/-- Rotating takes every entry of the row out of it after finitely many turns. -/
inductive Drains : List α → Prop
  | nil : Drains []
  | step {x : α} {xs : List α} : Drains (advance key (x :: xs)) → Drains (x :: xs)

variable {key}

/-- Once the entries before one of a largest key have drained, that one leaves the row. -/
theorem Drains.of_split {n : Nat} (hshort : ∀ a : List α, a.length < n → Drains key a) {m : α}
    {b : List α} (hb : Drains key b) :
    ∀ c, (∀ y ∈ b ++ m :: c, key y ≤ key m) → (b ++ m :: c).length ≤ n → Drains key (b ++ m :: c) := by
  induction hb with
  | nil =>
    intro c hmax hlen
    refine Drains.step ?_
    have hnone : ¬ ∃ z ∈ c, key m < key z := fun ⟨z, hz, hlt⟩ =>
      absurd (hmax z (List.mem_cons_of_mem m hz)) (Nat.not_le.mpr hlt)
    rw [advance, if_neg hnone]
    exact hshort c hlen
  | @step x xs _ ih =>
    intro c hmax hlen
    obtain ⟨c', hc'⟩ := exists_advance_append key x xs m c
    have hsub := advance_subset key (x :: xs ++ m :: c)
    have hle := advance_length_le key (x :: xs ++ m :: c)
    rw [List.cons_append] at hc' hsub hle hmax hlen ⊢
    refine Drains.step ?_
    rw [hc'] at hsub hle ⊢
    exact ih c' (fun y hy => hmax y (hsub hy)) (hle.trans hlen)

variable (key)

theorem drains (a : List α) : Drains key a := by
  induction hn : a.length using Nat.strong_induction_on generalizing a with
  | _ n ih =>
    cases hmax : List.argmax key a with
    | none =>
      rw [List.argmax_eq_none.mp hmax]
      exact Drains.nil
    | some m =>
      obtain ⟨b, c, rfl⟩ := List.append_of_mem (List.argmax_mem hmax)
      have hshort : ∀ a' : List α, a'.length < n → Drains key a' := fun a' h => ih a'.length h a' rfl
      have hb : Drains key b := hshort b (by rw [← hn, List.length_append, List.length_cons]; omega)
      exact hb.of_split hshort c (fun y hy => List.le_of_mem_argmax hy hmax) hn.le

/-! ### Whole runs -/

variable {key} {judge : α → Verdict}

/-- The run that starts with this queue ends. -/
def Ends (key : α → Nat) (judge : α → Verdict) (q : List α) : Prop := ∃ n r, run key judge n q = some r

theorem ends_of_rotate {q : List α} {x : α} {xs : List α} (hrot : rotate key q = x :: xs)
    (hdrop : judge x = .drop → Ends key judge xs) (hkeep : judge x = .keep → Ends key judge (x :: xs)) :
    Ends key judge q := by
  cases hx : judge x with
  | stop => exact ⟨1, x :: xs, by simp only [run, hrot, hx]⟩
  | drop =>
    obtain ⟨n, r, h⟩ := hdrop hx
    exact ⟨n + 1, r, by simp only [run, hrot, hx, h]⟩
  | keep =>
    obtain ⟨n, r, h⟩ := hkeep hx
    exact ⟨n + 1, r, by simp only [run, hrot, hx, h]⟩

/-- With a row ahead of an entry to stop at, the run ends if the runs of shorter queues do. -/
theorem ends_of_drains {t : α} (ht : judge t = .stop) {n : Nat}
    (hshort : ∀ q : List α, q.length < n → t ∈ q → Ends key judge q) {a : List α} (ha : Drains key a) :
    ∀ b, a ≠ [] → (a ++ t :: b).length ≤ n → Ends key judge (a ++ t :: b) := by
  induction ha with
  | nil => exact fun b hne _ => absurd rfl hne
  | @step x xs _ ih =>
    intro b _ hlen
    obtain ⟨b', hrot⟩ := exists_rotate_append key x xs t b
    have hsame := (rotate_perm key (x :: xs ++ t :: b)).length_eq
    rw [hrot] at hsame
    cases hadv : advance key (x :: xs) with
    | nil =>
      rw [hadv] at hrot
      exact ends_of_rotate hrot (fun h => by rw [ht] at h; cases h) (fun h => by rw [ht] at h; cases h)
    | cons y ys =>
      rw [hadv] at hrot hsame ih
      rw [List.cons_append] at hrot
      refine ends_of_rotate hrot (fun _ => ?_) fun _ => ?_
      · refine hshort (ys ++ t :: b') ?_ (List.mem_append_right ys List.mem_cons_self)
        rw [List.cons_append, List.length_cons] at hsame
        omega
      · exact ih b' (List.cons_ne_nil y ys) (hsame.le.trans hlen)

/-- With an entry to stop at anywhere in the queue, the run ends. -/
theorem ends_of_mem {t : α} (ht : judge t = .stop) {q : List α} (hmem : t ∈ q) : Ends key judge q := by
  induction hn : q.length using Nat.strong_induction_on generalizing q with
  | _ n ih =>
    have hshort : ∀ q' : List α, q'.length < n → t ∈ q' → Ends key judge q' := fun q' hlt hmem' =>
      ih q'.length hlt hmem' rfl
    have hperm := rotate_perm key q
    cases hrot : rotate key q with
    | nil =>
      rw [hrot] at hperm
      exact absurd (hperm.symm.subset hmem) List.not_mem_nil
    | cons x xs =>
      rw [hrot] at hperm
      have hlen := hperm.length_eq
      rw [List.length_cons] at hlen
      cases List.mem_cons.mp (hperm.symm.subset hmem) with
      | inl heq =>
        subst heq
        exact ends_of_rotate hrot (fun h => by rw [ht] at h; cases h) (fun h => by rw [ht] at h; cases h)
      | inr htail =>
        refine ends_of_rotate hrot (fun _ => hshort xs (by omega) htail) fun _ => ?_
        obtain ⟨a, b, rfl⟩ := List.append_of_mem htail
        have hdrains := drains key (x :: a)
        exact ends_of_drains ht hshort hdrains b (List.cons_ne_nil x a)
          (by rw [← hn, ← hperm.length_eq]; exact Nat.le_refl _)

/-- What a finished run leaves: the queue it got, less entries that were to go, with one to stop at in
front. -/
theorem run_spec {n : Nat} {q r : List α} (h : run key judge n q = some r) :
    (∃ x xs, r = x :: xs ∧ judge x = .stop) ∧
      ∃ dropped, (r ++ dropped).Perm q ∧ ∀ y ∈ dropped, judge y = .drop := by
  induction n generalizing q with
  | zero => cases h
  | succ n ih =>
    have hperm := rotate_perm key q
    rw [run] at h
    cases hrot : rotate key q with
    | nil => rw [hrot] at h; cases h
    | cons x xs =>
      rw [hrot] at h hperm
      cases hx : judge x with
      | stop =>
        simp only [hx, Option.some.injEq] at h
        subst h
        exact ⟨⟨x, xs, rfl, hx⟩, [], by rwa [List.append_nil], fun y hy => by cases hy⟩
      | drop =>
        simp only [hx] at h
        obtain ⟨hhead, dropped, hp, hd⟩ := ih h
        refine ⟨hhead, x :: dropped, ?_, ?_⟩
        · exact (List.perm_middle.trans (hp.cons x)).trans hperm
        · intro y hy
          cases List.mem_cons.mp hy with
          | inl heq => rw [heq]; exact hx
          | inr hmem => exact hd y hmem
      | keep =>
        simp only [hx] at h
        obtain ⟨hhead, dropped, hp, hd⟩ := ih h
        exact ⟨hhead, dropped, hp.trans hperm, hd⟩

example : run (fun n => n % 10) (fun n => if n = 31 then .stop else if n = 12 then .drop else .keep) 9
    [31, 12, 22, 41] = some [31, 41, 22] := by decide

end Rotation
