import Akos.Lib.Traced
import Akos.Utils.Strings
import Mathlib.Data.BitVec

/-!
# The receive ring

`receive_packet` of `rtl8139.c`. The card puts the packets into a ring one behind the other, each behind a header of four
bytes with its length, and the driver follows with a pointer of its own. The buffer is longer than the ring, for the end
of a packet that does not fit into it.
-/

namespace Akos

def rxBufSize : BitVec 32 := 8192#32

def sizeofRxBuffer : Nat := 8192 + 16 + 1500

def rxReadPointerMask : BitVec 32 := ~~~3#32

def crBufe : Byte := 0x01#8

/-- The memory from the start of `rx_buffer` on. -/
abbrev RxBuffer := Nat → Byte

/-- `*(t + 1)` behind an offset. -/
def packetLengthAt (rxBuffer : RxBuffer) (offset : Nat) : BitVec 16 := rxBuffer (offset + 3) ++ rxBuffer (offset + 2)

/-- The offsets that are read from the buffer, and `current_packet_ptr` afterwards. -/
def receivePacket (cmd : Byte) (rxBuffer : RxBuffer) (currentPacketPtr : BitVec 32) : Traced Nat (BitVec 32) :=
  if cmd &&& crBufe ≠ 0#8 then pure currentPacketPtr
  else do
    let t := currentPacketPtr.toNat
    Traced.emit [t + 2, t + 3]
    let packetLength := packetLengthAt rxBuffer t
    Traced.emit ((List.range packetLength.toNat).map (t + 4 + ·))
    let ptr := (currentPacketPtr + packetLength.setWidth 32 + 4#32 + 3#32) &&& rxReadPointerMask
    pure (if rxBufSize < ptr then ptr - rxBufSize else ptr)

/-! ### Runs -/

/-- A call of `receive_packet`: the command register of the card, and what is in the buffer. -/
structure Reception where
  cmd : Byte
  rxBuffer : RxBuffer

/-- The place of a packet in the ring, with its header. -/
def ringSize (packetLength : Nat) : Nat := 4 + (packetLength + 3) / 4 * 4

def Reception.lengthAt (r : Reception) (position : Nat) : Nat := (packetLengthAt r.rxBuffer position).toNat

def Reception.next (r : Reception) (position : Nat) : Nat := (position + ringSize (r.lengthAt position)) % 8192

/-- The card has a packet for every call, and puts them one behind the other around the ring. -/
def Placed : Nat → List Reception → Prop
  | _, [] => True
  | position, r :: rest =>
    r.cmd &&& crBufe = 0#8 ∧ 4 ≤ r.lengthAt position ∧ r.lengthAt position ≤ 1518 ∧ Placed (r.next position) rest

/-- After every call the pointer is in the ring and has moved on by the packet, and only the buffer is read. -/
def TracksRing : BitVec 32 → List Reception → Prop
  | _, [] => True
  | ptr, r :: rest => ∃ ptr', (receivePacket r.cmd r.rxBuffer ptr).result = some ptr' ∧
    (∀ offset ∈ (receivePacket r.cmd r.rxBuffer ptr).effects, offset < sizeofRxBuffer) ∧
    4 ∣ ptr'.toNat ∧ ptr'.toNat < 8192 ∧ ptr'.toNat = r.next ptr.toNat ∧ TracksRing ptr' rest

/-- No packet ends right at the end of the ring, and every one ends in the buffer. -/
def FitsRing : Nat → List Reception → Prop
  | _, [] => True
  | position, r :: rest =>
    position + 4 + r.lengthAt position ≤ sizeofRxBuffer ∧ r.next position ≠ 0 ∧ FitsRing (r.next position) rest

instance decidablePlaced : (position : Nat) → (receptions : List Reception) → Decidable (Placed position receptions)
  | _, [] => isTrue trivial
  | position, r :: rest =>
    have := decidablePlaced (r.next position) rest
    inferInstanceAs (Decidable (_ ∧ _ ∧ _ ∧ _))

instance decidableFitsRing :
    (position : Nat) → (receptions : List Reception) → Decidable (FitsRing position receptions)
  | _, [] => isTrue trivial
  | position, r :: rest =>
    have := decidableFitsRing (r.next position) rest
    inferInstanceAs (Decidable (_ ∧ _ ∧ _))

variable {r : Reception} {ptr : BitVec 32}

theorem toNat_and_rxReadPointerMask (x : BitVec 32) : (x &&& rxReadPointerMask).toNat = x.toNat / 4 * 4 := by
  have hbits : ∀ i < 32, (3#32).getLsbD i = decide (i < 2) := by decide
  have hshift : x &&& rxReadPointerMask = x >>> 2 <<< 2 := by
    refine BitVec.eq_of_getLsbD_eq fun i hi => ?_
    rw [rxReadPointerMask, BitVec.getLsbD_and, BitVec.getLsbD_not, hbits i hi, BitVec.getLsbD_shiftLeft,
      BitVec.getLsbD_ushiftRight]
    by_cases htwo : i < 2
    · simp [htwo]
    · have hsum : 2 + (i - 2) = i := by omega
      simp [htwo, hi, hsum]
  have hlt := x.isLt
  rw [hshift, BitVec.toNat_shiftLeft, BitVec.toNat_ushiftRight, Nat.shiftLeft_eq, Nat.shiftRight_eq_div_pow]
  exact Nat.mod_eq_of_lt (by omega)

/-- What is read is the length and the packet. The pointer stays on the end of the ring when a packet ends there. -/
theorem receivePacket_spec (hcmd : r.cmd &&& crBufe = 0#8) (hptr : 4 ∣ ptr.toNat) (hlt : ptr.toNat < 8192)
    (hlength : r.lengthAt ptr.toNat ≤ 1518) : ∃ ptr', (receivePacket r.cmd r.rxBuffer ptr).result = some ptr' ∧
    ptr'.toNat = (if r.next ptr.toNat = 0 then 8192 else r.next ptr.toNat) ∧
    ((∀ offset ∈ (receivePacket r.cmd r.rxBuffer ptr).effects, offset < sizeofRxBuffer) ↔
      ptr.toNat + 4 + r.lengthAt ptr.toNat ≤ sizeofRxBuffer) := by
  rw [receivePacket, if_neg (not_not_intro hcmd)]
  refine ⟨_, rfl, ?_, ?_⟩
  · have hsum : (ptr + (packetLengthAt r.rxBuffer ptr.toNat).setWidth 32 + 4#32 + 3#32).toNat =
        ptr.toNat + r.lengthAt ptr.toNat + 7 := by
      rw [Reception.lengthAt] at hlength ⊢
      simp only [BitVec.toNat_add, BitVec.toNat_setWidth, BitVec.toNat_ofNat]
      omega
    have hmasked := toNat_and_rxReadPointerMask
      (ptr + (packetLengthAt r.rxBuffer ptr.toNat).setWidth 32 + 4#32 + 3#32)
    rw [hsum] at hmasked
    rw [Reception.next, ringSize]
    generalize (ptr + (packetLengthAt r.rxBuffer ptr.toNat).setWidth 32 + 4#32 + 3#32) &&& rxReadPointerMask = moved
      at hmasked
    have hsize : rxBufSize.toNat = 8192 := rfl
    split
    · next hover =>
      rw [BitVec.lt_def, hsize] at hover
      rw [BitVec.toNat_sub_of_le (by rw [BitVec.le_def, hsize]; omega), hsize]
      split <;> omega
    · next hinside =>
      rw [BitVec.lt_def, hsize] at hinside
      split <;> omega
  · refine Traced.within_emit_bind_iff.trans ((and_congr_right' Traced.within_emit_bind_iff).trans ?_)
    rw [and_iff_left (Traced.within_pure _), List.forall_mem_map, sizeofRxBuffer]
    rw [Reception.lengthAt] at hlength ⊢
    generalize (packetLengthAt r.rxBuffer ptr.toNat).toNat = length at hlength
    constructor
    · intro h
      cases length with
      | zero => omega
      | succ length =>
        have hlast := h.2 length (List.mem_range.mpr (Nat.lt_succ_self length))
        omega
    · intro h
      refine ⟨fun offset hmem => ?_, fun i hi => ?_⟩
      · simp only [List.mem_cons, List.not_mem_nil, or_false] at hmem
        omega
      · have hlt := List.mem_range.mp hi
        omega

/-- As long as no packet ends at the end of the ring the pointer is where the card puts the next one. -/
theorem tracksRing_iff_fitsRing {receptions : List Reception} (hptr : 4 ∣ ptr.toNat) (hlt : ptr.toNat < 8192)
    (h : Placed ptr.toNat receptions) : TracksRing ptr receptions ↔ FitsRing ptr.toNat receptions := by
  induction receptions generalizing ptr with
  | nil => rfl
  | cons r rest ih =>
    obtain ⟨hcmd, -, hlength, hrest⟩ := h
    obtain ⟨ptr', hresult, hmoved, hreads⟩ := receivePacket_spec hcmd hptr hlt hlength
    have hnext : 4 ∣ r.next ptr.toNat ∧ r.next ptr.toNat < 8192 := by
      rw [Reception.next, ringSize]
      omega
    rw [TracksRing, FitsRing, hreads]
    constructor
    · intro h
      obtain ⟨ptr₁, hresult₁, hfits, -, -, hptr₁, hrun⟩ := h
      obtain rfl : ptr' = ptr₁ := Option.some.inj (hresult.symm.trans hresult₁)
      have hne : r.next ptr.toNat ≠ 0 := by
        intro hzero
        rw [if_pos hzero] at hmoved
        omega
      rw [← hptr₁] at hnext hrest ⊢
      exact ⟨hfits, hptr₁ ▸ hne, (ih hnext.1 hnext.2 hrest).mp hrun⟩
    · intro h
      obtain ⟨hfits, hne, hrun⟩ := h
      rw [if_neg hne] at hmoved
      rw [← hmoved] at hnext hrest hrun
      exact ⟨ptr', hresult, hfits, hnext.1, hnext.2, hmoved, (ih hnext.1 hnext.2 hrest).mpr hrun⟩

/-- The pointer follows the packets in every run in which none ends at the end of the ring and each lies in the buffer,
and in no other run. -/
theorem tracksRing_iff {receptions : List Reception} (h : Placed 0 receptions) :
    TracksRing 0#32 receptions ↔ FitsRing 0 receptions :=
  tracksRing_iff_fitsRing (by decide) (by decide) h

/-- A packet of 1020 bytes, wherever the pointer is. -/
def reception1020 : Reception := ⟨0#8, fun offset => if offset % 2 = 0 then 0xFC#8 else 0x03#8⟩

theorem tracksRing_iff_two : TracksRing 0#32 [reception1020, reception1020] :=
  (tracksRing_iff (by decide)).mpr (by decide)

/-- Eight packets of 1020 bytes fill the ring, and the pointer is not in it any more. -/
theorem not_tracksRing : ¬ (∀ receptions, Placed 0 receptions → TracksRing 0#32 receptions) := by
  intro h
  have hplaced : Placed 0 (List.replicate 8 reception1020) := by decide
  have hfits := (@tracksRing_iff_fitsRing 0#32 _ (by decide) (by decide) hplaced).mp (h _ hplaced)
  exact absurd hfits (by decide)

end Akos
