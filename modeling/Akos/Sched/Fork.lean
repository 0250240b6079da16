import Akos.Lib.Pushes
import Akos.Utils.Graphics
import Mathlib.Data.Fintype.EquivFin

/-!
# The stacks of a forked thread

`fork` copies the user stack page and the used part of the kernel stack to new pages, and then follows the saved
frame pointers from its own frame on and adds the distance of the user stacks to each, until it finds a zero. Nothing
looks at where they lead.
-/

namespace Akos

open Pushes (Within within_iff)

/-- `while (i < n) dst[i] = src[i]` -/
def copyWords (mem : ByteMemory) (dst src : BitVec 32) : Nat → ByteMemory
  | 0 => mem
  | n + 1 => copyWords (mem.storeWord dst (mem.loadWord src)) (dst + 4#32) (src + 4#32) n

/-- How often a pointer to words goes up until it is not below the limit. -/
def wordsBelow (p limit : BitVec 32) : Nat := if p < limit then ((limit - p).toNat + 3) / 4 else 0

/-- The loop over the saved frame pointers, with the addresses it writes to. -/
def relocate (stackDiff : BitVec 32) : Nat → ByteMemory → BitVec 32 → Option (ByteMemory × List (BitVec 32))
  | 0, _, _ => none
  | fuel + 1, mem, p =>
    if mem.loadWord p = 0#32 then some (mem, [])
    else
      let mem := mem.storeWord p (mem.loadWord p + stackDiff)
      (relocate stackDiff fuel mem (mem.loadWord p)).map fun r => (r.1, p :: r.2)

/-- The stacks of the thread that calls `fork` and of its child, and the registers in `fork`. The new pages are not
those of the thread, and the frame of `fork` is in the kernel stack, with room for a `trapFrame` below it. -/
structure ForkStacks where
  /-- `parent_task->initialStack` -/
  initialStack : BitVec 32
  /-- `parent_task->kernelESP` -/
  parentKernelESP : BitVec 32
  /-- The result of `create_user_stack`. -/
  stack : BitVec 32
  /-- The result of `create_user_kernel_stack`. -/
  kernelEsp : BitVec 32
  esp : BitVec 32
  ebp : BitVec 32
  aligned : ∀ page ∈ [initialStack - 4096#32, parentKernelESP - 4096#32, stack, kernelEsp - 4096#32],
    page.toNat % 4096 = 0
  distinct : [initialStack - 4096#32, parentKernelESP - 4096#32, stack, kernelEsp - 4096#32].Nodup
  words : (parentKernelESP - esp).toNat % 4 = 0
  frame : 24 ≤ (parentKernelESP - ebp).toNat ∧ (parentKernelESP - ebp).toNat ≤ (parentKernelESP - esp).toNat
  room : (parentKernelESP - esp).toNat + 60 ≤ 4096

namespace ForkStacks

variable (s : ForkStacks)

def stackDiff : BitVec 32 := s.stack - s.initialStack + 4096#32

def kernelStackDiff : BitVec 32 := s.kernelEsp - s.parentKernelESP

/-- `kernel_esp`, where the child's part of the kernel stack begins. -/
def childEsp : BitVec 32 := s.kernelEsp - (s.parentKernelESP - s.esp)

/-- The memory before the frame pointers are relocated. -/
def copied (mem : ByteMemory) : ByteMemory :=
  let mem := copyWords mem s.stack (s.initialStack - 4096#32) 1024
  let n := wordsBelow s.esp (s.parentKernelESP - 20#32)
  let mem := copyWords mem s.childEsp s.esp n
  let parentEsp := s.esp + BitVec.ofNat 32 (4 * n)
  let childEsp := s.childEsp + BitVec.ofNat 32 (4 * n)
  let parentUserEip := mem.loadWord parentEsp
  let parentUserCodeSegment := mem.loadWord (parentEsp + 4#32)
  let parentUserFlags := mem.loadWord (parentEsp + 8#32)
  let parentUserStackPointer := mem.loadWord (parentEsp + 12#32)
  let parentUserStackSegment := mem.loadWord (parentEsp + 16#32)
  let mem := mem.storeWord childEsp parentUserEip
  let mem := mem.storeWord (childEsp + 4#32) parentUserCodeSegment
  let mem := mem.storeWord (childEsp + 8#32) parentUserFlags
  let mem := mem.storeWord (childEsp + 12#32) (parentUserStackPointer + s.stackDiff)
  let mem := mem.storeWord (childEsp + 16#32) parentUserStackSegment
  mem.storeWord (s.childEsp - 60#32 + 56#32) 0x202#32

/-- Where `fork` keeps the frame pointer of its caller, in the child's stack. -/
def childKernelEbp : BitVec 32 := s.ebp + s.kernelStackDiff

/-- The rest of the `trapFrame`: the offset of each field that is set, and its value. -/
def frameFields (returnNull : BitVec 32) : List (BitVec 32 × BitVec 32) :=
  [(24#32, s.childKernelEbp), (28#32, 0#32), (16#32, 0#32), (20#32, 0#32), (36#32, 0#32), (40#32, 0#32), (32#32, 0#32),
    (44#32, 0#32), (52#32, 0x08#32), (12#32, 0x23#32), (8#32, 0x23#32), (4#32, 0x23#32), (0#32, 0x23#32),
    (48#32, returnNull)]

def finishFrame (returnNull : BitVec 32) (mem : ByteMemory) : ByteMemory :=
  (s.frameFields returnNull).foldl (fun mem field => mem.storeWord (s.childEsp - 60#32 + field.1) field.2) mem

/-- The memory behind `fork`, and the addresses the loop wrote to. -/
def fork (returnNull : BitVec 32) (fuel : Nat) (mem : ByteMemory) : Option (ByteMemory × List (BitVec 32)) :=
  (relocate s.stackDiff fuel (s.copied mem) s.childKernelEbp).map fun r => (s.finishFrame returnNull r.1, r.2)

end ForkStacks

/-! ### What is copied -/

section

variable {mem : ByteMemory} {dst src p a v : BitVec 32} {n : Nat}

theorem storeWord_of_not_within (h : ¬ Within p 4 a) : mem.storeWord p v a = mem a := by
  rw [ByteMemory.storeWord_apply]
  exact if_neg h

/-- What is left of a range behind its first word. -/
theorem within_add_four (q a : BitVec 32) (hn : 4 * (n + 1) < 2 ^ 32) :
    Within (q + 4#32) (4 * n) a ↔ Within q (4 * (n + 1)) a ∧ ¬ Within q 4 a := by
  unfold Within
  bv_omega

/-- The copy takes from the source what was there before, when the two do not meet. -/
theorem copyWords_apply (mem : ByteMemory) (hapart : ∀ a, Within dst (4 * n) a → ¬ Within src (4 * n) a)
    (hn : 4 * n < 2 ^ 32) (a : BitVec 32) :
    copyWords mem dst src n a = if (a - dst).toNat < 4 * n then mem (a - dst + src) else mem a := by
  induction n generalizing mem dst src with
  | zero => exact (if_neg (Nat.not_lt_zero _)).symm
  | succ n ih =>
    have hnext := ih (mem.storeWord dst (mem.loadWord src))
      (fun b hb hb' => hapart b ((within_add_four dst b hn).mp hb).1 ((within_add_four src b hn).mp hb').1) (by omega)
    rw [copyWords, hnext]
    by_cases hfirst : Within dst 4 a
    · have hlt : (a - dst).toNat < 4 := hfirst
      have hrest : ¬ (a - (dst + 4#32)).toNat < 4 * n := fun h => ((within_add_four dst a hn).mp h).2 hfirst
      rw [if_neg hrest, if_pos (by omega), ByteMemory.storeWord_apply, if_pos hlt,
        ByteMemory.colorByte_loadWord mem src hlt, BitVec.ofNat_toNat, BitVec.setWidth_eq, BitVec.add_comm]
    · have hiff := within_add_four dst a hn
      by_cases hin : Within dst (4 * (n + 1)) a
      · have hsrc : ¬ Within dst 4 (a - dst + src) := fun h => by
          refine hapart (a - dst + src) (Nat.lt_of_lt_of_le h (by omega)) ?_
          have hsub : a - dst + src - src = a - dst := add_sub_cancel_right _ _
          rw [Within, hsub]
          exact hin
        have haddress : a - (dst + 4#32) + (src + 4#32) = a - dst + src := by ring
        have hrest : (a - (dst + 4#32)).toNat < 4 * n := hiff.mpr ⟨hin, hfirst⟩
        have hlt : (a - dst).toNat < 4 * (n + 1) := hin
        rw [if_pos hrest, if_pos hlt, haddress, storeWord_of_not_within hsrc]
      · have hrest : ¬ (a - (dst + 4#32)).toNat < 4 * n := fun h => hin (hiff.mp h).1
        have hlt : ¬ (a - dst).toNat < 4 * (n + 1) := hin
        rw [if_neg hrest, if_neg hlt, storeWord_of_not_within hfirst]

/-- A page has no byte of another. -/
theorem not_within_page {q : BitVec 32} (hp : p.toNat % 4096 = 0) (hq : q.toNat % 4096 = 0) (hne : p ≠ q)
    (h : Within p 4096 a) : ¬ Within q 4096 a := by
  unfold Within at h ⊢
  bv_omega

end

namespace ForkStacks

variable {s : ForkStacks} {mem : ByteMemory} {a : BitVec 32}

/-- The used part of the kernel stack, in bytes. -/
def used (s : ForkStacks) : Nat := (s.parentKernelESP - s.esp).toNat

/-- How far a byte is below the top of the child's kernel stack. -/
def depth (s : ForkStacks) (a : BitVec 32) : Nat := (s.kernelEsp - a).toNat

theorem used_le (s : ForkStacks) : 24 ≤ s.used ∧ s.used + 60 ≤ 4096 ∧ s.used % 4 = 0 :=
  ⟨s.frame.1.trans s.frame.2, s.room, s.words⟩

theorem esp_eq (s : ForkStacks) : s.esp = s.parentKernelESP - BitVec.ofNat 32 s.used := by
  rw [used, BitVec.ofNat_toNat, BitVec.setWidth_eq, sub_sub_cancel]

theorem childEsp_eq (s : ForkStacks) : s.childEsp = s.kernelEsp - BitVec.ofNat 32 s.used := by
  rw [childEsp, used, BitVec.ofNat_toNat, BitVec.setWidth_eq]

theorem wordsBelow_esp (s : ForkStacks) : 4 * wordsBelow s.esp (s.parentKernelESP - 20#32) = s.used - 20 := by
  have hused := s.used_le
  have halign := s.aligned (s.parentKernelESP - 4096#32) (by simp)
  rw [s.esp_eq, wordsBelow]
  generalize s.used = n at *
  generalize s.parentKernelESP = top at *
  have hlt : top - BitVec.ofNat 32 n < top - 20#32 := by bv_omega
  have hsub : (top - 20#32 - (top - BitVec.ofNat 32 n)).toNat = n - 20 := by bv_omega
  rw [if_pos hlt, hsub]
  omega

/-- A word of the child's kernel stack that is written behind the copy, by its distance from the top. -/
theorem storeWord_of_depth {d : Nat} {v : BitVec 32} (hd : 4 ≤ d) (hlt : d ≤ 4096)
    (h : ¬ (d - 4 < s.depth a ∧ s.depth a ≤ d)) : mem.storeWord (s.kernelEsp - BitVec.ofNat 32 d) v a = mem a := by
  refine storeWord_of_not_within fun hwithin => h ?_
  have hsplit : d - 4 + 4 = d := by omega
  have hdepth := @within_iff 32 s.kernelEsp a 4 (d - 4) (by omega)
  rw [hsplit] at hdepth
  exact hdepth.mp hwithin

/-- The two loops. -/
def twoCopies (s : ForkStacks) (mem : ByteMemory) : ByteMemory :=
  copyWords (copyWords mem s.stack (s.initialStack - 4096#32) 1024) s.childEsp s.esp
    (wordsBelow s.esp (s.parentKernelESP - 20#32))

/-- Behind the loops only the words of the interrupt and the flags are written. -/
theorem copied_eq (htop : ¬ (0 < s.depth a ∧ s.depth a ≤ 20))
    (hflags : ¬ (s.used < s.depth a ∧ s.depth a ≤ s.used + 4)) : s.copied mem a = s.twoCopies mem a := by
  have hused := s.used_le
  have hchild : s.childEsp + BitVec.ofNat 32 (4 * wordsBelow s.esp (s.parentKernelESP - 20#32))
      = s.kernelEsp - 20#32 := by
    rw [wordsBelow_esp, childEsp_eq]
    generalize s.used = n at *
    bv_omega
  have hframe : s.childEsp - 60#32 + 56#32 = s.kernelEsp - BitVec.ofNat 32 (s.used + 4) := by
    rw [childEsp_eq]
    generalize s.used = n at *
    bv_omega
  rw [copied, hchild, hframe]
  have h4 : s.kernelEsp - 20#32 + 4#32 = s.kernelEsp - BitVec.ofNat 32 16 := by bv_omega
  have h8 : s.kernelEsp - 20#32 + 8#32 = s.kernelEsp - BitVec.ofNat 32 12 := by bv_omega
  have h12 : s.kernelEsp - 20#32 + 12#32 = s.kernelEsp - BitVec.ofNat 32 8 := by bv_omega
  have h16 : s.kernelEsp - 20#32 + 16#32 = s.kernelEsp - BitVec.ofNat 32 4 := by bv_omega
  have hword (mem : ByteMemory) (v : BitVec 32) (d : Nat) (hd : 4 ≤ d) (hle : d ≤ 20) :
      mem.storeWord (s.kernelEsp - BitVec.ofNat 32 d) v a = mem a := storeWord_of_depth hd (by omega) (by omega)
  rw [h4, h8, h12, h16, storeWord_of_depth (by omega) (by omega) (by omega), hword _ _ 4 (by decide) (by decide),
    hword _ _ 8 (by decide) (by decide), hword _ _ 12 (by decide) (by decide), hword _ _ 16 (by decide) (by decide),
    hword _ _ 20 (by decide) (by decide)]
  rfl

theorem kernelPage_iff (s : ForkStacks) (a : BitVec 32) :
    Within (s.kernelEsp - 4096#32) 4096 a ↔ 0 < s.depth a ∧ s.depth a ≤ 4096 := by
  have h := @within_iff 32 s.kernelEsp a 4096 0 (by decide)
  rwa [Nat.zero_add] at h

theorem childEsp_iff (s : ForkStacks) (a : BitVec 32) :
    Within s.childEsp (s.used - 20) a ↔ 20 < s.depth a ∧ s.depth a ≤ s.used := by
  have hused := s.used_le
  have h := @within_iff 32 s.kernelEsp a (s.used - 20) 20 (by omega)
  rwa [Nat.add_sub_cancel' (by omega), ← childEsp_eq] at h

/-- No two of the four pages meet. -/
theorem pages_apart (s : ForkStacks) {p q : BitVec 32}
    (h : [p, q].Sublist [s.initialStack - 4096#32, s.parentKernelESP - 4096#32, s.stack, s.kernelEsp - 4096#32])
    (hp : Within p 4096 a) : ¬ Within q 4096 a :=
  not_within_page (s.aligned p (h.subset (by simp))) (s.aligned q (h.subset (by simp)))
    (by simpa using s.distinct.sublist h) hp

/-- The copies: the user stack page, the kernel stack above the words of the interrupt, and nothing else. -/
theorem twoCopies_apply (s : ForkStacks) (mem : ByteMemory) (a : BitVec 32) : s.twoCopies mem a =
    if 20 < s.depth a ∧ s.depth a ≤ s.used then mem (a - s.kernelStackDiff)
    else if (a - s.stack).toNat < 4096 then mem (a - s.stackDiff) else mem a := by
  have hused := s.used_le
  have huser (b : BitVec 32) (h : Within s.stack 4096 b) : ¬ Within (s.initialStack - 4096#32) 4096 b := fun h' =>
    s.pages_apart (by simp) h' h
  have hparent (b : BitVec 32) (h : Within s.esp (s.used - 20) b) : Within (s.parentKernelESP - 4096#32) 4096 b := by
    rw [esp_eq] at h
    unfold Within at h ⊢
    generalize s.used = n at *
    bv_omega
  have hkernel (b : BitVec 32) (h : Within s.childEsp (s.used - 20) b) : ¬ Within s.esp (s.used - 20) b := fun h' => by
    have hdepth := (s.childEsp_iff b).mp h
    exact s.pages_apart (by simp) (hparent b h') ((s.kernelPage_iff b).mpr (by omega))
  have hn := s.wordsBelow_esp
  rw [← hn] at hkernel
  rw [twoCopies, copyWords_apply _ hkernel (by omega), hn]
  simp only [copyWords_apply mem huser (by decide : 4 * 1024 < 2 ^ 32)]
  by_cases hdepth : 20 < s.depth a ∧ s.depth a ≤ s.used
  · have hin : (a - s.childEsp).toNat < s.used - 20 := (s.childEsp_iff a).mpr hdepth
    have haddress : a - s.childEsp + s.esp = a - s.kernelStackDiff := by
      rw [childEsp, kernelStackDiff]
      ring
    have hsource : ¬ (a - s.kernelStackDiff - s.stack).toNat < 4 * 1024 := fun h => by
      have hesp : Within s.esp (s.used - 20) (a - s.kernelStackDiff) := by
        rw [← haddress, Within, add_sub_cancel_right]
        exact hin
      exact s.pages_apart (by simp) (hparent _ hesp) h
    rw [if_pos hin, if_pos hdepth, haddress, if_neg hsource]
  · have hin : ¬ (a - s.childEsp).toNat < s.used - 20 := fun h => hdepth ((s.childEsp_iff a).mp h)
    have haddress : a - s.stack + (s.initialStack - 4096#32) = a - s.stackDiff := by
      rw [stackDiff]
      ring
    rw [if_neg hin, if_neg hdepth, haddress]

end ForkStacks

/-! ### The frame pointers -/

section

variable {mem : ByteMemory} {diff p q : BitVec 32}

/-- Where the saved frame pointers lead after `n` of them, with the distance of the stacks added to each. -/
def frameAt (mem : ByteMemory) (diff : BitVec 32) : Nat → BitVec 32 → Option (BitVec 32)
  | 0, p => some p
  | n + 1, p => if mem.loadWord p = 0#32 then none else frameAt mem diff n (mem.loadWord p + diff)

/-- A saved frame pointer is at the address, and it is not the zero at the end. -/
def SavedFrame (mem : ByteMemory) (diff p q : BitVec 32) : Prop :=
  (∃ n, frameAt mem diff n p = some q) ∧ mem.loadWord q ≠ 0#32

/-- The saved frame pointers do not lead to a byte of one they led to before. -/
def FramesApart (mem : ByteMemory) (diff p : BitVec 32) : Prop :=
  ∀ i j q r a, i < j → frameAt mem diff i p = some q → frameAt mem diff j p = some r → Within q 4 a → ¬ Within r 4 a

theorem loadWord_storeWord_of_apart {v : BitVec 32} (h : ∀ a, Within p 4 a → ¬ Within q 4 a) :
    (mem.storeWord p v).loadWord q = mem.loadWord q := by
  refine ByteMemory.loadWord_congr fun k hk => storeWord_of_not_within fun hwithin => h _ hwithin ?_
  rw [Within, add_sub_cancel_left]
  exact hk

theorem frameAt_congr {mem' : ByteMemory}
    (h : ∀ n q, frameAt mem diff n p = some q → mem'.loadWord q = mem.loadWord q) (n : Nat) :
    frameAt mem' diff n p = frameAt mem diff n p := by
  induction n generalizing p with
  | zero => rfl
  | succ n ih =>
    rw [frameAt, frameAt, h 0 p rfl]
    split
    · rfl
    · next hne => exact ih fun n q hq => h (n + 1) q (by rwa [frameAt, if_neg hne])

theorem frameAt_succ_of_ne (n : Nat) (hne : mem.loadWord p ≠ 0#32) :
    frameAt mem diff (n + 1) p = frameAt mem diff n (mem.loadWord p + diff) := if_neg hne

/-- The loop leaves what is ahead of it when nothing ahead meets the word it writes. -/
theorem frameAt_storeWord (hapart : FramesApart mem diff p) (hne : mem.loadWord p ≠ 0#32) (v : BitVec 32) (n : Nat) :
    frameAt (mem.storeWord p v) diff n (mem.loadWord p + diff) = frameAt mem diff (n + 1) p := by
  rw [frameAt_succ_of_ne n hne]
  refine frameAt_congr (fun n q hq => loadWord_storeWord_of_apart fun a => ?_) n
  exact hapart 0 (n + 1) p q a (Nat.succ_pos n) rfl (by rwa [frameAt_succ_of_ne n hne])

theorem FramesApart.next (hapart : FramesApart mem diff p) (hne : mem.loadWord p ≠ 0#32) (v : BitVec 32) :
    FramesApart (mem.storeWord p v) diff (mem.loadWord p + diff) := fun i j q r a hij hi hj => by
  rw [frameAt_storeWord hapart hne] at hi hj
  exact hapart (i + 1) (j + 1) q r a (Nat.succ_lt_succ hij) hi hj

theorem savedFrame_iff (hapart : FramesApart mem diff p) (hne : mem.loadWord p ≠ 0#32) (v : BitVec 32) :
    SavedFrame mem diff p q ↔ q = p ∨ SavedFrame (mem.storeWord p v) diff (mem.loadWord p + diff) q := by
  have hload {n : Nat} (hn : frameAt mem diff (n + 1) p = some q) : (mem.storeWord p v).loadWord q = mem.loadWord q :=
    loadWord_storeWord_of_apart fun a => hapart 0 (n + 1) p q a (Nat.succ_pos n) rfl hn
  constructor
  · rintro ⟨⟨n, hn⟩, hq⟩
    cases n with
    | zero => exact Or.inl (Option.some.inj hn).symm
    | succ n => exact Or.inr ⟨⟨n, by rwa [frameAt_storeWord hapart hne]⟩, by rwa [hload hn]⟩
  · rintro (rfl | ⟨⟨n, hn⟩, hq⟩)
    · exact ⟨⟨0, rfl⟩, hne⟩
    · rw [frameAt_storeWord hapart hne] at hn
      exact ⟨⟨n + 1, hn⟩, by rwa [← hload hn]⟩

theorem relocate_of_ne (fuel : Nat) (hne : mem.loadWord p ≠ 0#32) : relocate diff (fuel + 1) mem p =
    (relocate diff fuel (mem.storeWord p (mem.loadWord p + diff)) (mem.loadWord p + diff)).map
      fun r => (r.1, p :: r.2) := by
  refine (if_neg hne).trans ?_
  dsimp only
  rw [ByteMemory.loadWord_storeWord]

/-- The loop writes to the saved frame pointers up to the first zero, and to nothing else. -/
theorem relocate_spec {k : Nat} {e : BitVec 32} (hapart : FramesApart mem diff p) (hk : frameAt mem diff k p = some e)
    (he : mem.loadWord e = 0#32) :
    ∃ mem' frames, relocate diff (k + 1) mem p = some (mem', frames) ∧ (∀ q, q ∈ frames ↔ SavedFrame mem diff p q) ∧
      ∀ a, (∀ q ∈ frames, ¬ Within q 4 a) → mem' a = mem a := by
  induction k generalizing mem p with
  | zero =>
    obtain rfl := Option.some.inj hk
    refine ⟨mem, [], if_pos he, fun q => ⟨fun h => absurd h List.not_mem_nil, ?_⟩, fun _ _ => rfl⟩
    rintro ⟨⟨n, hn⟩, hq⟩
    cases n with
    | zero => exact absurd (Option.some.inj hn ▸ he) hq
    | succ n =>
      rw [frameAt, if_pos he] at hn
      cases hn
  | succ k ih =>
    have hne : mem.loadWord p ≠ 0#32 := fun hzero => by
      rw [frameAt, if_pos hzero] at hk
      cases hk
    have hload : (mem.storeWord p (mem.loadWord p + diff)).loadWord e = mem.loadWord e :=
      loadWord_storeWord_of_apart fun a => hapart 0 (k + 1) p e a (Nat.succ_pos k) rfl hk
    obtain ⟨mem', frames, hrelocate, hframes, hkept⟩ := ih (hapart.next hne (mem.loadWord p + diff))
      (by rwa [frameAt_storeWord hapart hne]) (hload.trans he)
    refine ⟨mem', p :: frames, ?_, fun q => ?_, fun a ha => ?_⟩
    · rw [relocate_of_ne _ hne, hrelocate]
      rfl
    · rw [List.mem_cons, hframes, ← savedFrame_iff hapart hne]
    · rw [hkept a fun q hq => ha q (List.mem_cons_of_mem p hq), storeWord_of_not_within (ha p List.mem_cons_self)]

theorem frameAt_next {k : Nat} (hk : frameAt mem diff k p = some q) (hne : mem.loadWord q ≠ 0#32) :
    frameAt mem diff (k + 1) p = some (mem.loadWord q + diff) := by
  induction k generalizing p with
  | zero =>
    obtain rfl := Option.some.inj hk
    exact frameAt_succ_of_ne 0 hne
  | succ k ih =>
    by_cases hzero : mem.loadWord p = 0#32
    · rw [frameAt, if_pos hzero] at hk
      cases hk
    · rw [frameAt_succ_of_ne _ hzero] at hk ⊢
      exact ih hk

/-- The address space has no room for saved frame pointers without end. -/
theorem FramesApart.ends (hapart : FramesApart mem diff p) :
    ∃ k e, frameAt mem diff k p = some e ∧ mem.loadWord e = 0#32 := by
  by_contra hnone
  have hsome : ∀ k, ∃ e, frameAt mem diff k p = some e := fun k => by
    induction k with
    | zero => exact ⟨p, rfl⟩
    | succ k ih =>
      obtain ⟨e, he⟩ := ih
      exact ⟨_, frameAt_next he fun hzero => hnone ⟨k, e, he, hzero⟩⟩
  choose f hf using hsome
  have hne : ∀ i j, i < j → f i ≠ f j := fun i j hij heq => by
    have hself : Within (f i) 4 (f i) := by
      rw [Within, sub_self]
      decide
    exact hapart i j (f i) (f j) (f i) hij (hf i) (hf j) hself (heq ▸ hself)
  refine not_injective_infinite_finite (fun k => (f k).toFin) fun i j heq => ?_
  have hfij := BitVec.toFin_inj.mp heq
  obtain hij | rfl | hji := Nat.lt_trichotomy i j
  · exact absurd hfij (hne i j hij)
  · rfl
  · exact absurd hfij.symm (hne j i hji)

theorem relocate_mono {fuel fuel' : Nat} {r : ByteMemory × List (BitVec 32)} (h : relocate diff fuel mem p = some r)
    (hle : fuel ≤ fuel') : relocate diff fuel' mem p = some r := by
  induction fuel generalizing fuel' mem p r with
  | zero => cases h
  | succ fuel ih =>
    obtain ⟨fuel', rfl⟩ := Nat.exists_eq_add_of_lt hle
    by_cases hzero : mem.loadWord p = 0#32
    · rw [relocate, if_pos hzero] at h ⊢
      exact h
    · rw [relocate_of_ne _ hzero] at h ⊢
      obtain ⟨r', hr', rfl⟩ := Option.map_eq_some_iff.mp h
      rw [ih hr' (by omega)]
      rfl

end

namespace ForkStacks

/-! ### What `fork` writes to -/

variable (s : ForkStacks) (mem : ByteMemory)

/-- The new pages. -/
def InChild (a : BitVec 32) : Prop := Within s.stack 4096 a ∨ Within (s.kernelEsp - 4096#32) 4096 a

/-- The saved frame pointers in the copied stacks, from that in the frame of `fork` on. -/
def Frame (q : BitVec 32) : Prop := SavedFrame (s.copied mem) s.stackDiff s.childKernelEbp q

/-- No two of them have a byte in common, nor one with the zero at the end. -/
def FramesApart : Prop := Akos.FramesApart (s.copied mem) s.stackDiff s.childKernelEbp

/-- They are in the new pages. -/
def FramesStay : Prop := ∀ q, s.Frame mem q → ∀ a, Within q 4 a → s.InChild a

/-- The loop wrote to words in the new pages, and a byte that is in none of the saved frame pointers is what it is
in the stacks of the parent, the kernel stack up to the words of the interrupt. -/
structure TouchesChild (mem' : ByteMemory) (frames : List (BitVec 32)) : Prop where
  inChild : ∀ p ∈ frames, ∀ a, Within p 4 a → s.InChild a
  user : ∀ a, Within s.stack 4096 a → (∀ q, s.Frame mem q → ¬ Within q 4 a) → mem' a = mem (a - s.stackDiff)
  kernel : ∀ a, Within s.childEsp (s.used - 20) a → (∀ q, s.Frame mem q → ¬ Within q 4 a) →
    mem' a = mem (a - s.kernelStackDiff)

/-- The loop ends, and `fork` has touched nothing else. -/
def ForkTouchesChild (returnNull : BitVec 32) : Prop :=
  ∃ fuel mem' frames, s.fork returnNull fuel mem = some (mem', frames) ∧ s.TouchesChild mem mem' frames

variable {s mem} {a returnNull : BitVec 32}

/-- The fields of the `trapFrame` are below the part of the kernel stack that is copied. -/
theorem foldl_storeWord_of_depth {fields : List (BitVec 32 × BitVec 32)} (hfields : ∀ f ∈ fields, f.1.toNat ≤ 56)
    (h : ¬ (s.used < s.depth a ∧ s.depth a ≤ s.used + 60)) :
    fields.foldl (fun mem field => mem.storeWord (s.childEsp - 60#32 + field.1) field.2) mem a = mem a := by
  induction fields generalizing mem with
  | nil => rfl
  | cons f fields ih =>
    have hused := s.used_le
    have hf := hfields f List.mem_cons_self
    have haddress : s.childEsp - 60#32 + f.1 = s.kernelEsp - BitVec.ofNat 32 (s.used + 60 - f.1.toNat) := by
      rw [childEsp_eq]
      generalize s.used = n at *
      bv_omega
    rw [List.foldl_cons, ih fun f' hf' => hfields f' (List.mem_cons_of_mem f hf'), haddress,
      storeWord_of_depth (by omega) (by omega) (by omega)]

theorem depth_of_user (h : Within s.stack 4096 a) : ¬ (0 < s.depth a ∧ s.depth a ≤ 4096) := fun hdepth =>
  s.pages_apart (by simp) h ((s.kernelPage_iff a).mpr hdepth)

theorem copied_user (h : Within s.stack 4096 a) : s.copied mem a = mem (a - s.stackDiff) := by
  have hused := s.used_le
  have hdepth := depth_of_user h
  have hlt : (a - s.stack).toNat < 4096 := h
  rw [copied_eq (by omega) (by omega), twoCopies_apply, if_neg (by omega), if_pos hlt]

theorem copied_kernel (h : Within s.childEsp (s.used - 20) a) : s.copied mem a = mem (a - s.kernelStackDiff) := by
  have hdepth := (s.childEsp_iff a).mp h
  rw [copied_eq (by omega) (by omega), twoCopies_apply, if_pos hdepth]

theorem copied_of_not_inChild (h : ¬ s.InChild a) : s.copied mem a = mem a := by
  have hused := s.used_le
  have hdepth : ¬ (0 < s.depth a ∧ s.depth a ≤ 4096) := fun hd => h (Or.inr ((s.kernelPage_iff a).mpr hd))
  have hlt : ¬ (a - s.stack).toNat < 4096 := fun hlt => h (Or.inl hlt)
  rw [copied_eq (by omega) (by omega), twoCopies_apply, if_neg (by omega), if_neg hlt]

theorem finishFrame_apply (returnNull : BitVec 32) (h : ¬ (s.used < s.depth a ∧ s.depth a ≤ s.used + 60)) :
    s.finishFrame returnNull mem a = mem a :=
  foldl_storeWord_of_depth (by simp [frameFields]) h

/-- The loop ends when the saved frame pointers are apart, having written to each. -/
theorem FramesApart.exists_relocate (hapart : s.FramesApart mem) :
    ∃ fuel mem' frames, relocate s.stackDiff fuel (s.copied mem) s.childKernelEbp = some (mem', frames) ∧
      (∀ q, q ∈ frames ↔ s.Frame mem q) ∧ ∀ a, (∀ q, s.Frame mem q → ¬ Within q 4 a) → mem' a = s.copied mem a := by
  obtain ⟨k, e, hk, he⟩ := Akos.FramesApart.ends hapart
  obtain ⟨mem', frames, hrelocate, hframes, hkept⟩ := relocate_spec hapart hk he
  exact ⟨k + 1, mem', frames, hrelocate, hframes, fun a ha => hkept a fun q hq => ha q ((hframes q).mp hq)⟩

theorem forkTouchesChild_of_framesStay (hapart : s.FramesApart mem) (hstay : s.FramesStay mem)
    (returnNull : BitVec 32) : s.ForkTouchesChild mem returnNull := by
  have hused := s.used_le
  obtain ⟨fuel, mem', frames, hrelocate, hframes, hkept⟩ := hapart.exists_relocate
  refine ⟨fuel, s.finishFrame returnNull mem', frames, by rw [fork, hrelocate]; rfl, ?_, fun a ha hq => ?_,
    fun a ha hq => ?_⟩
  · exact fun p hp => hstay p ((hframes p).mp hp)
  · have hdepth := depth_of_user ha
    rw [finishFrame_apply returnNull (by omega), hkept a hq, copied_user ha]
  · have hdepth := (s.childEsp_iff a).mp ha
    rw [finishFrame_apply returnNull (by omega), hkept a hq, copied_kernel ha]

theorem framesStay_of_forkTouchesChild (hapart : s.FramesApart mem) (h : s.ForkTouchesChild mem returnNull) :
    s.FramesStay mem := by
  obtain ⟨fuel, mem', frames, hfork, htouches⟩ := h
  obtain ⟨fuel', mem'', frames', hrelocate, hframes, -⟩ := hapart.exists_relocate
  obtain ⟨r, hr, hresult⟩ := Option.map_eq_some_iff.mp hfork
  have hsame := (relocate_mono hr (Nat.le_max_left fuel fuel')).symm.trans
    (relocate_mono hrelocate (Nat.le_max_right fuel fuel'))
  have hlists : frames = frames' := by
    rw [Option.some.inj hsame] at hresult
    exact (congrArg Prod.snd hresult).symm
  exact fun q hq => htouches.inChild q (hlists ▸ (hframes q).mpr hq)

/-- `fork` touches only the stacks of the child when the saved frame pointers are apart and lead to the new pages;
and when they are apart and lead elsewhere, it does not. -/
theorem forkTouchesChild_of_framesApart (s : ForkStacks) (mem : ByteMemory) (returnNull : BitVec 32) :
    (s.FramesApart mem ∧ s.FramesStay mem → s.ForkTouchesChild mem returnNull) ∧
      (s.FramesApart mem ∧ ¬ s.FramesStay mem → ¬ s.ForkTouchesChild mem returnNull) :=
  ⟨fun h => forkTouchesChild_of_framesStay h.1 h.2 returnNull, fun h htouches =>
    h.2 (framesStay_of_forkTouchesChild h.1 htouches)⟩

/-- The first thread of a process forks. -/
def firstFork : ForkStacks where
  initialStack := 0x80000000#32
  parentKernelESP := 0x80001000#32
  stack := 0x7FFFE000#32
  kernelEsp := 0x80002000#32
  esp := 0x80000F00#32
  ebp := 0x80000F80#32
  aligned := by simp
  distinct := by simp
  words := by decide +kernel
  frame := ⟨by decide +kernel, by decide +kernel⟩
  room := by decide +kernel

/-- The thread has a number in `ebp` that is no address in its stack. -/
def strayFrame : ByteMemory :=
  ByteMemory.storeWord (ByteMemory.storeWord (fun _ => 0#8) 0x80000F80#32 0x401000#32) 0x400000#32 0x403000#32

theorem loadWord_copied_firstFork : (firstFork.copied strayFrame).loadWord 0x80001F80#32 = 0x401000#32 ∧
    (firstFork.copied strayFrame).loadWord 0x400000#32 = 0x403000#32 ∧
    (firstFork.copied strayFrame).loadWord 0x402000#32 = 0#32 := by
  have hkernel (a : BitVec 32) (h : (a - 0x80001F80#32).toNat < 4) :
      firstFork.copied strayFrame a = strayFrame (a - 0x1000#32) :=
    copied_kernel (show (a - 0x80001F00#32).toNat < 236 by bv_omega)
  have hout (a : BitVec 32) (h : a.toNat < 0x500000) : firstFork.copied strayFrame a = strayFrame a :=
    copied_of_not_inChild (show ¬ ((a - 0x7FFFE000#32).toNat < 4096 ∨ (a - 0x80001000#32).toNat < 4096) by bv_omega)
  refine ⟨?_, ?_, ?_⟩
  · rw [ByteMemory.loadWord, hkernel _ (by decide), hkernel _ (by decide), hkernel _ (by decide), hkernel _ (by decide)]
    decide +kernel
  · rw [ByteMemory.loadWord, hout _ (by decide), hout _ (by decide), hout _ (by decide), hout _ (by decide)]
    decide +kernel
  · rw [ByteMemory.loadWord, hout _ (by decide), hout _ (by decide), hout _ (by decide), hout _ (by decide)]
    decide +kernel

/-- The frame pointers of `firstFork` are the one in the frame of `fork` and the one at the stray address. -/
theorem frameAt_firstFork {n : Nat} {q : BitVec 32}
    (h : frameAt (firstFork.copied strayFrame) firstFork.stackDiff n firstFork.childKernelEbp = some q) :
    n = 0 ∧ q = 0x80001F80#32 ∨ n = 1 ∧ q = 0x400000#32 ∨ n = 2 ∧ q = 0x402000#32 := by
  obtain ⟨h0, h1, h2⟩ := loadWord_copied_firstFork
  have hstart : firstFork.childKernelEbp = 0x80001F80#32 := by decide
  have hdiff : firstFork.stackDiff = 0xFFFFF000#32 := by decide
  rw [hstart, hdiff] at h
  cases n with
  | zero => exact Or.inl ⟨rfl, (Option.some.inj h).symm⟩
  | succ n =>
    rw [frameAt, if_neg (by rw [h0]; decide), h0, show 0x401000#32 + 0xFFFFF000#32 = 0x400000#32 by decide] at h
    cases n with
    | zero => exact Or.inr (Or.inl ⟨rfl, (Option.some.inj h).symm⟩)
    | succ n =>
      rw [frameAt, if_neg (by rw [h1]; decide), h1, show 0x403000#32 + 0xFFFFF000#32 = 0x402000#32 by decide] at h
      cases n with
      | zero => exact Or.inr (Or.inr ⟨rfl, (Option.some.inj h).symm⟩)
      | succ n =>
        rw [frameAt, if_pos h2] at h
        cases h

theorem framesApart_firstFork : firstFork.FramesApart strayFrame := fun i j q r a hij hi hj => by
  unfold Within
  obtain ⟨rfl, rfl⟩ | ⟨rfl, rfl⟩ | ⟨rfl, rfl⟩ := frameAt_firstFork hi <;>
    obtain ⟨rfl, rfl⟩ | ⟨rfl, rfl⟩ | ⟨rfl, rfl⟩ := frameAt_firstFork hj <;> bv_omega

/-- The loop adds the distance of the stacks to a word at an address that the thread made up. -/
theorem not_forkTouchesChild : ¬ ∀ (s : ForkStacks) (mem : ByteMemory) (returnNull : BitVec 32),
    s.ForkTouchesChild mem returnNull := fun h => by
  have hstay := framesStay_of_forkTouchesChild framesApart_firstFork (h firstFork strayFrame 0#32)
  obtain ⟨h0, h1, -⟩ := loadWord_copied_firstFork
  have hframe : firstFork.Frame strayFrame 0x400000#32 := by
    refine ⟨⟨1, ?_⟩, by rw [h1]; decide⟩
    rw [show firstFork.childKernelEbp = 0x80001F80#32 by decide, frameAt, if_neg (by rw [h0]; decide), h0]
    rfl
  have hin : Within 0x7FFFE000#32 4096 0x400000#32 ∨ Within 0x80001000#32 4096 0x400000#32 :=
    hstay _ hframe 0x400000#32 (by rw [Within, sub_self]; decide)
  unfold Within at hin
  exact absurd hin (by decide)

end ForkStacks

end Akos
