import Akos.Lib.Overlay
import Mathlib.Data.BitVec
import Mathlib.Tactic.Ring

/-!
# Blocks pushed on a stack

A stack grows towards lower addresses. A block takes some room below the last one, and its bytes are written upwards
from the bottom of that room. While the rooms together are smaller than the address space no block meets another, and
each of them can be read back afterwards.
-/

namespace Pushes

variable {w : Nat} {α : Type*}

/-- The lowest address of a stack, and what was written to memory, in order. -/
structure Stack (w : Nat) (α : Type*) where
  top : BitVec w
  writes : List (BitVec w × α)

/-- The values in a block, with the room for them. -/
structure Block (α : Type*) where
  room : Nat
  bytes : List α
  fits : bytes.length ≤ room

/-- Values at consecutive addresses. -/
def writesAt (a : BitVec w) (bytes : List α) : List (BitVec w × α) :=
  bytes.mapIdx fun k c => (a + BitVec.ofNat w k, c)

/-- The address is one of the `n` from `p` on. -/
def Within (p : BitVec w) (n : Nat) (a : BitVec w) : Prop := (a - p).toNat < n

namespace Stack

def lower (s : Stack w α) (n : Nat) : Stack w α := { s with top := s.top - BitVec.ofNat w n }

def write (s : Stack w α) (bytes : List α) : Stack w α := { s with writes := s.writes ++ writesAt s.top bytes }

def push (s : Stack w α) (b : Block α) : Stack w α := (s.lower b.room).write b.bytes

def pushAll (s : Stack w α) (bs : List (Block α)) : Stack w α := bs.foldl push s

end Stack

/-- The room of some blocks together. -/
def depth (bs : List (Block α)) : Nat := (bs.map Block.room).sum

@[simp] theorem depth_nil : depth ([] : List (Block α)) = 0 := rfl

@[simp] theorem depth_cons (b : Block α) (bs : List (Block α)) : depth (b :: bs) = b.room + depth bs := by
  rw [depth, List.map_cons, List.sum_cons, depth]

@[simp] theorem depth_append (bs bs' : List (Block α)) : depth (bs ++ bs') = depth bs + depth bs' := by
  rw [depth, List.map_append, List.sum_append, depth, depth]

/-! ### Where blocks are -/

variable {a p x : BitVec w} {b : Block α} {bs bs' : List (Block α)} {s : Stack w α} {n d : Nat}

@[simp] theorem Stack.pushAll_nil (s : Stack w α) : s.pushAll [] = s := rfl

@[simp] theorem Stack.pushAll_cons (s : Stack w α) (b : Block α) (bs : List (Block α)) :
    s.pushAll (b :: bs) = (s.push b).pushAll bs := rfl

@[simp] theorem Stack.pushAll_append (s : Stack w α) (bs bs' : List (Block α)) :
    s.pushAll (bs ++ bs') = (s.pushAll bs).pushAll bs' := List.foldl_append

theorem Stack.top_pushAll (s : Stack w α) (bs : List (Block α)) :
    (s.pushAll bs).top = s.top - BitVec.ofNat w (depth bs) := by
  induction bs generalizing s with
  | nil => exact (BitVec.sub_zero s.top).symm
  | cons b bs ih =>
    rw [pushAll_cons, ih, depth_cons, BitVec.ofNat_add]
    exact sub_sub _ _ _

theorem Stack.top_push_pushAll (s : Stack w α) (bs : List (Block α)) (b : Block α) :
    ((s.pushAll bs).push b).top = s.top - BitVec.ofNat w (depth bs + b.room) := by
  rw [BitVec.ofNat_add]
  exact (congrArg (· - BitVec.ofNat w b.room) (s.top_pushAll bs)).trans (sub_sub _ _ _)

theorem Stack.writes_pushAll (s : Stack w α) (bs : List (Block α)) :
    (s.pushAll bs).writes = s.writes ++ ((Stack.mk s.top []).pushAll bs).writes := by
  induction bs generalizing s with
  | nil => exact (List.append_nil _).symm
  | cons b bs ih =>
    rw [pushAll_cons, pushAll_cons, ih, ih ((Stack.mk s.top []).push b), ← List.append_assoc]
    rfl

theorem mem_writesAt {e : BitVec w × α} {bytes : List α} (h : e ∈ writesAt a bytes) :
    ∃ k < bytes.length, e.1 = a + BitVec.ofNat w k := by
  obtain ⟨k, hk, rfl⟩ := List.mem_mapIdx.mp h
  exact ⟨k, hk, rfl⟩

/-- The room of a block that starts `d` below an address. -/
theorem within_iff (hlt : d + n < 2 ^ w) :
    Within (a - BitVec.ofNat w (d + n)) n x ↔ d < (a - x).toNat ∧ (a - x).toNat ≤ d + n := by
  have hdepth : (BitVec.ofNat w (d + n)).toNat = d + n := by
    rw [BitVec.toNat_ofNat, Nat.mod_eq_of_lt hlt]
  constructor
  · intro h
    have hx : a - x = BitVec.ofNat w (d + n) - (x - (a - BitVec.ofNat w (d + n))) := by ring
    rw [Within] at h
    rw [hx, BitVec.toNat_sub_of_le (by rw [BitVec.le_def, hdepth]; omega), hdepth]
    omega
  · intro h
    have hx : x - (a - BitVec.ofNat w (d + n)) = BitVec.ofNat w (d + n) - (a - x) := by ring
    rw [Within, hx, BitVec.toNat_sub_of_le (by rw [BitVec.le_def, hdepth]; exact h.2), hdepth]
    omega

/-- Rooms that are apart in depth are apart in memory. -/
theorem not_within_of_le {m e : Nat} (h : Within (a - BitVec.ofNat w (d + n)) n x) (hle : d + n ≤ e)
    (hlt : e + m < 2 ^ w) : ¬ Within (a - BitVec.ofNat w (e + m)) m x := fun h' => by
  have hnear := (within_iff (by omega)).mp h
  have hfar := (within_iff hlt).mp h'
  omega

theorem within_of_mem_push {e : BitVec w × α} (h : e ∈ (s.push b).writes) (hlt : b.room < 2 ^ w) :
    e ∈ s.writes ∨ Within (s.top - BitVec.ofNat w b.room) b.room e.1 := by
  refine (List.mem_append.mp h).imp_right fun h => ?_
  obtain ⟨k, hk, heq⟩ := mem_writesAt h
  have hsub : e.1 - (s.top - BitVec.ofNat w b.room) = BitVec.ofNat w k := by
    rw [heq]
    exact add_sub_cancel_left _ _
  have hfits := b.fits
  rw [Within, hsub, BitVec.toNat_ofNat, Nat.mod_eq_of_lt (by omega)]
  omega

/-- What some blocks write is in their room. -/
theorem of_mem_pushAll {e : BitVec w × α} (htop : s.top = a - BitVec.ofNat w d) (h : e ∈ (s.pushAll bs).writes)
    (hlt : d + depth bs < 2 ^ w) :
    e ∈ s.writes ∨ d < (a - e.1).toNat ∧ (a - e.1).toNat ≤ d + depth bs := by
  induction bs generalizing s d with
  | nil => exact Or.inl h
  | cons b bs ih =>
    rw [depth_cons] at hlt ⊢
    have hpush : s.top - BitVec.ofNat w b.room = a - BitVec.ofNat w (d + b.room) := by
      rw [htop, BitVec.ofNat_add]
      exact sub_sub _ _ _
    obtain h | hbelow := @ih (s.push b) (d + b.room) hpush h (by omega)
    · refine (within_of_mem_push h (by omega)).imp_right fun hwithin => ?_
      rw [hpush] at hwithin
      have hroom := (within_iff (by omega)).mp hwithin
      omega
    · exact Or.inr (by omega)

/-! ### What is read back -/

variable {screen : BitVec w → α}

/-- Pushes leave what is above the stack. -/
theorem put_pushAll_of_le (htop : s.top = a - BitVec.ofNat w d) (hle : (a - x).toNat ≤ d)
    (hlt : d + depth bs < 2 ^ w) : Overlay.put screen (s.pushAll bs).writes x = Overlay.put screen s.writes x := by
  rw [Stack.writes_pushAll, Overlay.put_append]
  refine Overlay.put_of_not_mem fun e he heq => ?_
  obtain h | hbelow := @of_mem_pushAll w α a bs ⟨s.top, []⟩ d e htop he hlt
  · cases h
  · rw [heq] at hbelow
    omega

theorem put_writesAt {bytes : List α} (hk : n < bytes.length) (hlt : bytes.length ≤ 2 ^ w) :
    Overlay.put screen (writesAt a bytes) (a + BitVec.ofNat w n) = bytes[n] := by
  induction bytes using List.reverseRecOn with
  | nil => exact absurd hk (Nat.not_lt_zero n)
  | append_singleton bytes c ih =>
    rw [List.length_append, List.length_singleton] at hk hlt
    rw [writesAt, List.mapIdx_concat, ← writesAt, Overlay.put_append]
    by_cases hlast : n = bytes.length
    · subst hlast
      rw [List.getElem_concat_length rfl]
      exact if_pos rfl
    · have hne : a + BitVec.ofNat w bytes.length ≠ a + BitVec.ofNat w n := fun heq => by
        have hnat := congrArg BitVec.toNat (add_left_cancel heq)
        rw [BitVec.toNat_ofNat, BitVec.toNat_ofNat, Nat.mod_eq_of_lt (by omega), Nat.mod_eq_of_lt (by omega)] at hnat
        omega
      rw [Overlay.put_of_not_mem fun e he => List.mem_singleton.mp he ▸ hne, ih (by omega) (by omega),
        List.getElem_append_left (by omega)]

/-- A block is read back after all the pushes. -/
theorem put_pushAll (hk : n < b.bytes.length) (hlt : depth bs + (b.room + depth bs') < 2 ^ w) :
    Overlay.put screen ((Stack.mk a []).pushAll (bs ++ b :: bs')).writes
      (a - BitVec.ofNat w (depth bs + b.room) + BitVec.ofNat w n) = b.bytes[n] := by
  have hfits := b.fits
  have htop := (Stack.mk a []).top_push_pushAll bs b
  have hwithin : Within (a - BitVec.ofNat w (depth bs + b.room)) b.room
      (a - BitVec.ofNat w (depth bs + b.room) + BitVec.ofNat w n) := by
    rw [Within, add_sub_cancel_left, BitVec.toNat_ofNat, Nat.mod_eq_of_lt (by omega)]
    omega
  have hle := ((within_iff (by omega)).mp hwithin).2
  rw [Stack.pushAll_append, Stack.pushAll_cons, put_pushAll_of_le htop hle (by omega), Stack.push, Stack.write,
    Overlay.put_append, ← htop]
  exact put_writesAt hk (by omega)

/-- When the writes stay within a limit so do the rooms, where the bytes of every block reach up to its end but for
less than `slack`. -/
theorem depth_le {limit slack : Nat} (hsnug : ∀ b ∈ bs, 0 < b.bytes.length ∧ b.room < b.bytes.length + slack)
    (hlimit : 2 * limit + slack ≤ 2 ^ w)
    (hwrites : ∀ e ∈ ((Stack.mk a []).pushAll bs).writes, 0 < (a - e.1).toNat ∧ (a - e.1).toNat ≤ limit) :
    depth bs ≤ limit := by
  induction bs using List.reverseRecOn with
  | nil => exact Nat.zero_le limit
  | append_singleton bs b ih =>
    obtain ⟨hpos, hroom⟩ := hsnug b List.mem_concat_self
    rw [Stack.pushAll_append] at hwrites
    have hdepth : depth bs ≤ limit := ih (fun b' hb' => hsnug b' (List.mem_append_left _ hb'))
      fun e he => hwrites e (List.mem_append_left _ he)
    have hbyte : ∀ n < b.bytes.length, 0 < (a - (a - BitVec.ofNat w (depth bs + b.room) + BitVec.ofNat w n)).toNat ∧
        (a - (a - BitVec.ofNat w (depth bs + b.room) + BitVec.ofNat w n)).toNat ≤ limit := fun n hn => by
      refine hwrites (_, b.bytes[n]) (List.mem_append_right _ (List.mem_mapIdx.mpr ⟨n, hn, ?_⟩))
      rw [← (Stack.mk a []).top_push_pushAll bs b]
      rfl
    have hfirst := (hbyte 0 hpos).2
    rw [BitVec.add_zero, sub_sub_self] at hfirst
    -- the byte at the start of the stack is not written, so the block is no longer than it is deep
    have hlength : b.bytes.length ≤ limit := Nat.le_of_not_lt fun hlt => by
      refine absurd (hbyte _ (hfirst.trans_lt hlt)).1 ?_
      rw [BitVec.ofNat_toNat, BitVec.setWidth_eq, sub_add_cancel, sub_self]
      exact Nat.lt_irrefl 0
    rw [depth_append, depth_cons, depth_nil, Nat.add_zero]
    rwa [BitVec.toNat_ofNat, Nat.mod_eq_of_lt (by omega)] at hfirst

end Pushes
