import Akos.Lib.FirstRun
import Akos.Memory.Translation

/-!
# Pages of user space in a row

`allocate_user_space_pages` and `find_user_space_pages_by_pdir` of `scheduler.c`: the search for pages that are not
present, and the allocation of what it finds in the current directory.
-/

namespace Akos

/-- `USER_SPACE` -/
abbrev userSpace : BitVec 32 := 0xA0000000#32

/-- Where the search ends. -/
abbrev userSpaceEnd : BitVec 32 := 0xC0000000#32

/-- The address of page `i` from `base` on. -/
def pageAt (base : BitVec 32) (i : Nat) : BitVec 32 := base + BitVec.ofNat 32 i * 4096#32

/-- The addresses of the `n` pages from `base` on. -/
def pagesAt (base : BitVec 32) (n : Nat) : List (BitVec 32) := (List.range n).map (pageAt base)

namespace Machine

/-- The loop of the search from page `i` on; `loc` is the first of the `count` pages before it. It returns 0 from
within when it gets to the end. The addresses repeat after 2^20 steps, so that more are never taken. -/
def findPages (m : Machine) (pdir base : BitVec 32) (pageAmt : Int) (steps i : Nat) (count : Int) (loc : BitVec 32) :
    Option (BitVec 32) :=
  match steps with
  | 0 => none
  | steps + 1 =>
    if userSpaceEnd ≤ pageAt base i then none
    else
      let free := !m.vmmngrCheckVirtPresent pdir (pageAt base i)
      let loc := if free ∧ count = 0 then pageAt base i else loc
      let count := if free then count + 1 else 0
      if count = pageAmt then some loc else findPages m pdir base pageAmt steps (i + 1) count loc

/-- What `loc` holds before the first assignment is `undefined`. -/
def findUserSpacePagesByPdir (m : Machine) (pdir base : BitVec 32) (pageAmt : Int) (undefined : BitVec 32) :
    BitVec 32 :=
  (m.findPages pdir base pageAmt (2 ^ 20) 0 0 undefined).getD 0#32

/-- The flags of the pages of a process. -/
abbrev userPageFlags : BitVec 32 := Entry.writable ||| Entry.user

def allocateUserSpacePages (m : Machine) (pageAmt : Int) (undefined : BitVec 32) : BitVec 32 × Machine :=
  match m.findPages m.curDirectory userSpace pageAmt (2 ^ 20) 0 0 undefined with
  | none => (0#32, m)
  | some loc => (loc, m.allocPages m.curDirectory userPageFlags userPageFlags (pagesAt loc pageAmt.toNat))

end Machine

section Pages

variable {base : BitVec 32} {i j n : Nat}

theorem toNat_pageAt (h : base.toNat + 4096 * i < 2 ^ 32) : (pageAt base i).toNat = base.toNat + 4096 * i := by
  rw [pageAt, BitVec.toNat_add, BitVec.toNat_mul, BitVec.toNat_ofNat, show (4096#32).toNat = 4096 from rfl]
  omega

theorem pageAt_add : pageAt (pageAt base i) j = pageAt base (i + j) := by
  simp only [pageAt, BitVec.ofNat_add, BitVec.add_mul, BitVec.add_assoc]

theorem mem_pagesAt {virt : BitVec 32} : virt ∈ pagesAt base n ↔ ∃ i < n, virt = pageAt base i := by
  simp [pagesAt, eq_comm]

/-- Pages that do not wrap around are different ones. -/
theorem samePage_pageAt (hi : base.toNat + 4096 * i < 2 ^ 32) (hj : base.toNat + 4096 * j < 2 ^ 32) :
    SamePage (pageAt base i) (pageAt base j) ↔ i = j := by
  rw [samePage_iff, toNat_pageAt hi, toNat_pageAt hj]
  omega

theorem pairwise_pagesAt (h : base.toNat + 4096 * n ≤ 2 ^ 32) :
    (pagesAt base n).Pairwise fun v v' => ¬ SamePage v v' := by
  rw [pagesAt, List.pairwise_map]
  refine List.Pairwise.imp_of_mem ?_ List.nodup_range
  intro i j hi hj hne hsame
  have hi := List.mem_range.mp hi
  have hj := List.mem_range.mp hj
  exact hne ((samePage_pageAt (by omega) (by omega)).mp hsame)

end Pages

namespace Machine

variable {m : Machine} {pdir base a undefined : BitVec 32} {n i steps : Nat}

/-- Page `i` from the base on is not present. -/
def absentPage (m : Machine) (pdir base : BitVec 32) (i : Nat) : Bool := !m.vmmngrCheckVirtPresent pdir (pageAt base i)

/-- The pages that begin below the end. -/
def pagesBelow (base : BitVec 32) : Nat := (0xC0000000 - base.toNat + 4095) / 4096

theorem end_le_pageAt_iff (hi : i ≤ pagesBelow base) : userSpaceEnd ≤ pageAt base i ↔ pagesBelow base ≤ i := by
  have hbase := base.isLt
  unfold pagesBelow at hi ⊢
  rw [BitVec.le_def, toNat_pageAt (by omega), show userSpaceEnd.toNat = 0xC0000000 from rfl]
  omega

/-- The loop is a scan for a run of absent pages. -/
theorem findPages_eq {count : Nat} {loc : BitVec 32} (hi : i ≤ pagesBelow base) (hsteps : pagesBelow base - i < steps)
    (hcount : count ≤ i) (hloc : count ≠ 0 → loc = pageAt base (i - count)) (hn : 0 < n) :
    m.findPages pdir base n steps i count loc =
      (FirstRun.scan (m.absentPage pdir base) n (pagesBelow base - i) i count).map (pageAt base) := by
  induction steps generalizing i count loc with
  | zero => omega
  | succ steps ih =>
    rw [findPages]
    by_cases hend : pagesBelow base ≤ i
    · rw [if_pos ((end_le_pageAt_iff hi).mpr hend), show pagesBelow base - i = 0 by omega]
      rfl
    rw [if_neg fun hle => hend ((end_le_pageAt_iff hi).mp hle),
      show pagesBelow base - i = pagesBelow base - (i + 1) + 1 by omega, FirstRun.scan]
    by_cases habsent : m.absentPage pdir base i = true
    · have hfree : (!m.vmmngrCheckVirtPresent pdir (pageAt base i)) = true := habsent
      have hloc' : (if True ∧ (count : Int) = 0 then pageAt base i else loc) = pageAt base (i - count) := by
        by_cases hzero : count = 0
        · rw [if_pos ⟨trivial, by omega⟩, hzero, Nat.sub_zero]
        · rw [if_neg (by omega), hloc hzero]
      rw [if_pos habsent]
      simp only [hfree, if_true, hloc']
      by_cases hfull : count + 1 = n
      · rw [if_pos (by omega), if_pos hfull]
        rfl
      · rw [if_neg (by omega), if_neg hfull]
        rw [show (count : Int) + 1 = ((count + 1 : Nat) : Int) from rfl]
        exact ih (by omega) (by omega) (show count + 1 ≤ i + 1 by omega) fun _ => by
          rw [show i + 1 - (count + 1) = i - count by omega]
    · have hfree : (!m.vmmngrCheckVirtPresent pdir (pageAt base i)) = false := by simpa [absentPage] using habsent
      rw [if_neg habsent]
      simp only [hfree, Bool.false_eq_true, false_and, if_false]
      rw [if_neg (by omega)]
      exact ih (by omega) (by omega) (show 0 ≤ i + 1 from Nat.zero_le _) fun hne => absurd rfl hne

theorem pagesBelow_lt (base : BitVec 32) : pagesBelow base < 2 ^ 20 := by
  unfold pagesBelow
  omega

/-- The search from the base on. -/
theorem findPages_start (hn : 0 < n) : m.findPages pdir base n (2 ^ 20) 0 0 undefined =
    (FirstRun.scan (m.absentPage pdir base) n (pagesBelow base) 0 0).map (pageAt base) :=
  findPages_eq (Nat.zero_le _) (pagesBelow_lt base) (Nat.le_refl _) (fun hne => absurd rfl hne) hn

/-- The `n` pages from page `first` on are absent and begin below the end. -/
def Room (m : Machine) (pdir base : BitVec 32) (n first : Nat) : Prop :=
  first + n ≤ pagesBelow base ∧ FirstRun.Run (m.absentPage pdir base) n first

theorem Room.congr {m' : Machine} {first : Nat} (h : m.Room pdir base n first)
    (hwords : ∀ virt, m'.pageWord pdir virt = m.pageWord pdir virt) : m'.Room pdir base n first := by
  refine ⟨h.1, fun j hfirst hlast => ?_⟩
  rw [absentPage, vmmngrCheckVirtPresent_eq, hwords, ← vmmngrCheckVirtPresent_eq]
  exact h.2 j hfirst hlast

/-- The search finds the least place with room. -/
theorem findPages_eq_some (hn : 0 < n) (h : m.findPages pdir base n (2 ^ 20) 0 0 undefined = some a) :
    ∃ first, a = pageAt base first ∧ m.Room pdir base n first ∧ ∀ other < first, ¬ m.Room pdir base n other := by
  rw [findPages_start hn] at h
  obtain ⟨first, hscan, rfl⟩ := Option.map_eq_some_iff.mp h
  obtain ⟨-, hlast, hrun, hleast⟩ := FirstRun.scan_eq_some hn (Nat.le_refl _) (fun j _ _ => by omega) hscan
  exact ⟨first, rfl, ⟨by omega, hrun⟩, fun other hlt hroom => hleast other (Nat.zero_le _) hlt hroom.2⟩

/-- The search finds nothing only when there is no room. -/
theorem exists_findPages (hn : 0 < n) {first : Nat} (hroom : m.Room pdir base n first) :
    ∃ a, m.findPages pdir base n (2 ^ 20) 0 0 undefined = some a := by
  rw [← Option.isSome_iff_exists, Option.isSome_iff_ne_none]
  intro hnone
  rw [findPages_start hn, Option.map_eq_none_iff] at hnone
  exact FirstRun.scan_eq_none hn (Nat.le_refl _) hnone (Nat.zero_le _) (by have := hroom.1; omega) hroom.2

end Machine

end Akos
