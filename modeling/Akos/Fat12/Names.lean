import Mathlib.Data.List.TakeWhile
import Akos.Fat12.Volume

/-!
# Names in a directory

`ToDosFileName` takes the first piece of a name for the base and the second one for the extension, and looks at
nothing behind. Names with one dot at most, inside, keep apart; others share an entry with a shorter name.
-/

namespace Akos.Fat12

variable {s t base ext : List Byte}

/-- `' '` -/
abbrev blank : Byte := 0x20#8

/-- `.`, `..`, or a base, alone or with a dot and an extension. -/
inductive Formed : List Byte → Prop
  | here : Formed [dot]
  | parent : Formed [dot, dot]
  | base {base : List Byte} : base ≠ [] → base.length ≤ 8 → dot ∉ base → Formed base
  | ext {base ext : List Byte} : base ≠ [] → base.length ≤ 8 → dot ∉ base → ext ≠ [] → ext.length ≤ 3 → dot ∉ ext →
      Formed (base ++ dot :: ext)

/-- What is claimed of two names: none is taken that has no form, and equal results come from equal names. -/
structure NamesApart (s t : List Byte) : Prop where
  left : ∀ r, toDosFileName s = some r → Formed s
  right : ∀ r, toDosFileName t = some r → Formed t
  apart : ∀ r, toDosFileName s = some r → toDosFileName t = some r → toUpper s = toUpper t

/-- A name that is `.`, `..`, or has at most one dot, which is neither in front nor at the end. -/
def Plain (s : List Byte) : Prop :=
  s = [dot] ∨ s = [dot, dot] ∨ (s ≠ [] ∧ s.head? ≠ some dot ∧ s.count dot ≤ 1 ∧ s.getLast? ≠ some dot)

/-- The piece in front of the first dot, unless the name begins with it. -/
def baseOf (s : List Byte) : List Byte := if s.head? = some dot then [] else s.takeWhile (· ≠ dot)

/-- The piece behind the first dot, if there is a dot behind the first character. -/
def extOf (s : List Byte) : List Byte :=
  if dot ∈ s.tail then (s.dropWhile (· ≠ dot)).tail.takeWhile (· ≠ dot) else []

/-- The base is longer than 8, or the extension longer than 3. -/
def TooLong (s : List Byte) : Prop := 8 < (baseOf s).length ∨ 3 < (extOf s).length

instance (s : List Byte) : Decidable (TooLong s) := inferInstanceAs (Decidable (_ ∨ _))

/-- The two fields of an entry's name. -/
def dosName (base ext : List Byte) : List Byte := (toUpper base).rightpad 8 blank ++ (toUpper ext).rightpad 3 blank

/-! ### Letters -/

theorem toUpper_append : toUpper (s ++ t) = toUpper s ++ toUpper t := List.map_append

theorem toUpper_length : (toUpper s).length = s.length := List.length_map _

/-- No letter becomes a character that is not one. -/
theorem mem_toUpper {c : Byte} (hc : c.toNat < 0x41) : c ∈ toUpper s ↔ c ∈ s := by
  rw [toUpper, List.mem_map]
  constructor
  · rintro ⟨x, hx, heq⟩
    split at heq
    · next hletter =>
      obtain ⟨hge, hle⟩ := hletter
      bv_omega
    · exact heq ▸ hx
  · intro hmem
    exact ⟨c, hmem, if_neg fun hletter => absurd hletter.1 (by bv_omega)⟩

/-! ### The pieces of a name -/

theorem eq_takeWhile_append (h : dot ∈ s) :
    s = s.takeWhile (· ≠ dot) ++ dot :: (s.dropWhile (· ≠ dot)).tail := by
  have hdrop : s.dropWhile (· ≠ dot) ≠ [] := by
    intro hnil
    have hall := List.dropWhile_eq_nil_iff.mp hnil dot h
    simp at hall
  have hhead : (s.dropWhile (· ≠ dot)).head hdrop = dot := by
    have hnot := List.head_dropWhile_not (· ≠ dot) hdrop
    simpa using hnot
  conv_lhs => rw [← List.takeWhile_append_dropWhile (p := (· ≠ dot)) (l := s), ← List.cons_head_tail hdrop, hhead]

theorem not_mem_takeWhile : dot ∉ s.takeWhile (· ≠ dot) := by
  intro hmem
  have htest := List.mem_takeWhile_imp hmem
  simp at htest

theorem seperateAndTake_ext :
    (if countSubstrings s dot > 1 then seperateAndTake s dot 1 else []) = extOf s := by
  have hcount : countSubstrings s dot > 1 ↔ dot ∈ s.tail := by
    rw [countSubstrings, ← List.count_pos_iff]
    omega
  rw [extOf]
  by_cases hmem : dot ∈ s.tail
  · rw [if_pos (hcount.mpr hmem), if_pos hmem]
    conv_lhs => rw [eq_takeWhile_append (List.mem_of_mem_tail hmem)]
    exact seperateAndTake_one not_mem_takeWhile
  · rw [if_neg fun h => hmem (hcount.mp h), if_neg hmem]

/-- `ToDosFileName` by the two pieces. -/
theorem toDosFileName_eq : toDosFileName s =
    if TooLong s then none
    else some (if s = [dot] then (dosName (baseOf s) (extOf s)).set 0 dot else dosName (baseOf s) (extOf s)) := by
  unfold toDosFileName
  dsimp only
  rw [seperateAndTake_ext, seperateAndTake_zero, ← baseOf]
  simp only [gt_iff_lt, strcmp, decide_eq_true_eq]
  rfl

/-! ### Names with a form -/

theorem takeWhile_self (h : dot ∉ base) : base.takeWhile (· ≠ dot) = base := by
  refine List.takeWhile_eq_self_iff.mpr fun c hc => ?_
  rw [decide_eq_true_iff]
  exact fun heq => h (heq ▸ hc)

theorem takeWhile_append (h : dot ∉ base) : (base ++ dot :: ext).takeWhile (· ≠ dot) = base := by
  rw [List.takeWhile_append_of_pos fun c hc => ?_, List.takeWhile_cons_of_neg (by simp), List.append_nil]
  rw [decide_eq_true_iff]
  exact fun heq => h (heq ▸ hc)

theorem dropWhile_append (h : dot ∉ base) : (base ++ dot :: ext).dropWhile (· ≠ dot) = dot :: ext := by
  rw [List.dropWhile_append_of_pos fun c hc => ?_, List.dropWhile_cons_of_neg (by simp)]
  rw [decide_eq_true_iff]
  exact fun heq => h (heq ▸ hc)

theorem head?_ne_dot (h : dot ∉ base) : base.head? ≠ some dot := fun heq => h (List.mem_of_head? heq)

theorem head?_append_ne_dot (hne : base ≠ []) (h : dot ∉ base) : (base ++ t).head? ≠ some dot := by
  obtain ⟨c, base, rfl⟩ := List.exists_cons_of_ne_nil hne
  exact fun heq => h (Option.some.inj heq ▸ List.mem_cons_self)

theorem baseOf_base (h : dot ∉ base) : baseOf base = base := by
  rw [baseOf, if_neg (head?_ne_dot h), takeWhile_self h]

theorem extOf_base (h : dot ∉ base) : extOf base = [] := if_neg fun hmem => h (List.mem_of_mem_tail hmem)

theorem baseOf_ext (hne : base ≠ []) (h : dot ∉ base) : baseOf (base ++ dot :: ext) = base := by
  rw [baseOf, if_neg (head?_append_ne_dot hne h), takeWhile_append h]

theorem extOf_ext (hne : base ≠ []) (h : dot ∉ base) (hext : dot ∉ ext) : extOf (base ++ dot :: ext) = ext := by
  have htail : dot ∈ (base ++ dot :: ext).tail := by
    rw [List.tail_append_of_ne_nil hne]
    exact List.mem_append_right _ List.mem_cons_self
  rw [extOf, if_pos htail, dropWhile_append h, List.tail_cons, takeWhile_self hext]

/-- A name with a form, from its pieces. -/
def spell (base ext : List Byte) : List Byte :=
  if base = [] then [dot, dot] else if ext = [] then base else base ++ dot :: ext

theorem Formed.eq_spell (h : Formed s) (hs : s ≠ [dot]) :
    toUpper s = spell (toUpper (baseOf s)) (toUpper (extOf s)) := by
  have hnil : ∀ {l}, l ≠ [] → toUpper l ≠ [] := fun hl hupper => hl (List.map_eq_nil_iff.mp hupper)
  cases h with
  | here => exact absurd rfl hs
  | parent => rfl
  | base hne _ hbase =>
    have hext : toUpper (extOf s) = [] := by
      rw [extOf_base hbase]
      rfl
    rw [hext, baseOf_base hbase, spell, if_neg (hnil hne), if_pos rfl]
  | ext hne _ hbase hne' _ hext =>
    rw [baseOf_ext hne hbase, extOf_ext hne hbase hext, spell, if_neg (hnil hne), if_neg (hnil hne'), toUpper_append]
    rfl

/-- The fields are as long as they are, so their contents can be told apart. -/
theorem rightpad_injective {n : Nat} {l l' : List Byte} (hl : blank ∉ l) (hl' : blank ∉ l')
    (h : l.rightpad n blank = l'.rightpad n blank) : l = l' := by
  have hstrip : ∀ {l : List Byte}, blank ∉ l → (l.rightpad n blank).takeWhile (· ≠ blank) = l := by
    intro l hl
    rw [List.rightpad, List.takeWhile_append_of_pos fun c hc => ?_, List.takeWhile_replicate, if_neg (by simp),
      List.append_nil]
    rw [decide_eq_true_iff]
    exact fun heq => hl (heq ▸ hc)
  rw [← hstrip hl, h, hstrip hl']

theorem dosName_injective {base' ext' : List Byte} (hbase : base.length ≤ 8) (hbase' : base'.length ≤ 8)
    (hblank : blank ∉ base ∧ blank ∉ ext) (hblank' : blank ∉ base' ∧ blank ∉ ext')
    (h : dosName base ext = dosName base' ext') : toUpper base = toUpper base' ∧ toUpper ext = toUpper ext' := by
  have hupper : ∀ {l}, blank ∉ l → blank ∉ toUpper l := fun hl hmem => hl ((mem_toUpper (by decide)).mp hmem)
  have hlength : ∀ {l : List Byte}, l.length ≤ 8 → ((toUpper l).rightpad 8 blank).length = 8 := by
    intro l hl
    rw [List.length_rightpad, toUpper_length]
    omega
  obtain ⟨hleft, hright⟩ := List.append_inj h ((hlength hbase).trans (hlength hbase').symm)
  exact ⟨rightpad_injective (hupper hblank.1) (hupper hblank'.1) hleft,
    rightpad_injective (hupper hblank.2) (hupper hblank'.2) hright⟩

/-! ### Which names are taken -/

/-- A name with a form is one with few dots, and its pieces are short. -/
theorem formed_iff : Formed s ↔ Plain s ∧ ¬TooLong s := by
  constructor
  · intro h
    cases h with
    | here => exact ⟨.inl rfl, by decide⟩
    | parent => exact ⟨.inr (.inl rfl), by decide⟩
    | base hne hle hbase =>
      refine ⟨.inr (.inr ⟨hne, head?_ne_dot hbase, ?_, fun hlast => hbase (List.mem_of_getLast? hlast)⟩), ?_⟩
      · rw [List.count_eq_zero.mpr hbase]
        exact Nat.zero_le 1
      · rw [TooLong, baseOf_base hbase, extOf_base hbase, List.length_nil]
        omega
    | @ext base ext hne hle hbase hne' hle' hext =>
      refine ⟨.inr (.inr ⟨by simp, head?_append_ne_dot hne hbase, ?_, fun hlast => hext ?_⟩), ?_⟩
      · rw [List.count_append, List.count_cons_self, List.count_eq_zero.mpr hbase, List.count_eq_zero.mpr hext]
      · obtain ⟨c, ext, rfl⟩ := List.exists_cons_of_ne_nil hne'
        have hlast' : (c :: ext).getLast? = some dot := by
          rw [← hlast, List.getLast?_append, List.getLast?_cons_cons]
          rfl
        exact List.mem_of_getLast? hlast'
      · rw [TooLong, baseOf_ext hne hbase, extOf_ext hne hbase hext]
        omega
  · rintro ⟨hplain, hshort⟩
    obtain rfl | rfl | ⟨hne, hhead, hcount, hlast⟩ := hplain
    · exact .here
    · exact .parent
    · by_cases hmem : dot ∈ s
      · have hsplit := eq_takeWhile_append hmem
        have hbase := not_mem_takeWhile (s := s)
        generalize s.takeWhile (· ≠ dot) = base at hsplit hbase
        generalize (s.dropWhile (· ≠ dot)).tail = ext at hsplit
        subst hsplit
        rw [List.count_append, List.count_cons_self, List.count_eq_zero.mpr hbase] at hcount
        have hext : dot ∉ ext := List.count_eq_zero.mp (by omega)
        have hne' : base ≠ [] := by
          rintro rfl
          exact hhead rfl
        have hne'' : ext ≠ [] := by
          rintro rfl
          exact hlast (by simp)
        rw [TooLong, baseOf_ext hne' hbase, extOf_ext hne' hbase hext] at hshort
        exact .ext hne' (by omega) hbase hne'' (by omega) hext
      · rw [TooLong, baseOf_base hmem] at hshort
        exact .base hne (by omega) hmem

theorem toDosFileName_eq_some {r : List Byte} (h : toDosFileName s = some r) : ¬TooLong s ∧
    r = if s = [dot] then (dosName (baseOf s) (extOf s)).set 0 dot else dosName (baseOf s) (extOf s) := by
  rw [toDosFileName_eq] at h
  split at h
  · cases h
  · next hshort => exact ⟨hshort, (Option.some.inj h).symm⟩

/-- A name is taken only if it has a form, exactly when it has few dots or is too long to be taken. -/
theorem formed_of_toDosFileName_iff : (∀ r, toDosFileName s = some r → Formed s) ↔ Plain s ∨ TooLong s := by
  by_cases hlong : TooLong s
  · refine iff_of_true (fun r hr => absurd hlong (toDosFileName_eq_some hr).1) (.inr hlong)
  · constructor
    · intro h
      rw [toDosFileName_eq, if_neg hlong] at h
      exact .inl (formed_iff.mp (h _ rfl)).1
    · rintro (hplain | hlong')
      · exact fun _ _ => formed_iff.mpr ⟨hplain, hlong⟩
      · exact absurd hlong' hlong

/-- `.` begins with the one character that no other name begins with. -/
theorem head?_dosName (h : dot ∉ base) : (dosName base ext).head? ≠ some dot := by
  cases base with
  | nil =>
    intro heq
    exact absurd (Option.some.inj heq) (by decide)
  | cons c base =>
    intro heq
    have hdot : dot ∈ toUpper (c :: base) := List.mem_of_head? heq
    exact h ((mem_toUpper (by decide)).mp hdot)

theorem not_mem_baseOf : dot ∉ baseOf s := by
  rw [baseOf]
  split
  · exact List.not_mem_nil
  · exact not_mem_takeWhile

theorem baseOf_subset {c : Byte} (h : c ∈ baseOf s) : c ∈ s := by
  rw [baseOf] at h
  split at h
  · cases h
  · exact List.takeWhile_subset _ h

theorem extOf_subset {c : Byte} (h : c ∈ extOf s) : c ∈ s := by
  rw [extOf] at h
  split at h
  · exact List.dropWhile_subset _ (List.mem_of_mem_tail (List.takeWhile_subset _ h))
  · cases h

theorem Formed.toUpper_injective {r : List Byte} (hs : Formed s) (ht : Formed t) (hblank : blank ∉ s)
    (hblank' : blank ∉ t) (h : toDosFileName s = some r) (h' : toDosFileName t = some r) : toUpper s = toUpper t := by
  obtain ⟨hshort, hr⟩ := toDosFileName_eq_some h
  obtain ⟨hshort', hr'⟩ := toDosFileName_eq_some h'
  have hhead : ∀ {u : List Byte}, u ≠ [dot] → (dosName (baseOf u) (extOf u)).head? ≠ some dot :=
    fun _ => head?_dosName not_mem_baseOf
  have hhere : (dosName (baseOf [dot]) (extOf [dot])).set 0 dot = dot :: List.replicate 10 blank := by decide
  by_cases hdot : s = [dot] <;> by_cases hdot' : t = [dot]
  · rw [hdot, hdot']
  · rw [if_pos hdot, hdot, hhere] at hr
    rw [if_neg hdot'] at hr'
    exact absurd (congrArg List.head? (hr'.symm.trans hr)) (hhead hdot')
  · rw [if_neg hdot] at hr
    rw [if_pos hdot', hdot', hhere] at hr'
    exact absurd (congrArg List.head? (hr.symm.trans hr')) (hhead hdot)
  · rw [if_neg hdot] at hr
    rw [if_neg hdot'] at hr'
    simp only [TooLong, not_or, Nat.not_lt] at hshort hshort'
    obtain ⟨hbase, hext⟩ := dosName_injective hshort.1 hshort'.1
      ⟨fun hmem => hblank (baseOf_subset hmem), fun hmem => hblank (extOf_subset hmem)⟩
      ⟨fun hmem => hblank' (baseOf_subset hmem), fun hmem => hblank' (extOf_subset hmem)⟩ (hr.symm.trans hr')
    rw [hs.eq_spell hdot, ht.eq_spell hdot', hbase, hext]

/-- Two names without spaces are taken and kept apart as they should be exactly when each has few dots or is too
long to be taken. -/
theorem namesApart_iff (hblank : blank ∉ s) (hblank' : blank ∉ t) :
    NamesApart s t ↔ (Plain s ∨ TooLong s) ∧ (Plain t ∨ TooLong t) := by
  rw [← formed_of_toDosFileName_iff, ← formed_of_toDosFileName_iff]
  constructor
  · exact fun h => ⟨h.left, h.right⟩
  · rintro ⟨hleft, hright⟩
    exact ⟨hleft, hright, fun r hr hr' => (hleft r hr).toUpper_injective (hright r hr') hblank hblank' hr hr'⟩

/-- `A.B` and `a.b` are one name. -/
theorem namesApart_case : NamesApart [0x41#8, dot, 0x42#8] [0x61#8, dot, 0x62#8] :=
  (namesApart_iff (by decide) (by decide)).mpr ⟨.inl (.inr (.inr (by decide))), .inl (.inr (.inr (by decide)))⟩

/-- `A.B.C` is taken, for the entry of `A.B`. -/
theorem not_namesApart : ∃ s t, blank ∉ s ∧ blank ∉ t ∧ ¬NamesApart s t ∧
    ∃ r, toDosFileName s = some r ∧ toDosFileName t = some r ∧ toUpper s ≠ toUpper t := by
  have htaken : ∃ r, toDosFileName [0x41#8, dot, 0x42#8, dot, 0x43#8] = some r ∧
      toDosFileName [0x41#8, dot, 0x42#8] = some r := ⟨_, rfl, by decide⟩
  obtain ⟨r, hr, hr'⟩ := htaken
  exact ⟨_, _, by decide, by decide, fun h => absurd (h.apart r hr hr') (by decide), r, hr, hr', by decide⟩

end Akos.Fat12
