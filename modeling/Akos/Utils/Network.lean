import Akos.Lib.Traced
import Akos.Utils.Strings

/-!
# Received frames

The handlers of `network.c`, one for every header of a frame. A handler lays its header over what is left of the frame
and hands on the rest, with the length that is left, which none of them looks at.
-/

namespace Akos

/-- What a handler does with a packet: it reads a byte of it, or hands its payload to the transport layer. Addresses are
distances from the start of the frame. -/
inductive PacketEffect where
  | read (address : Nat)
  | transport (payload : Nat) (packetLength : Int) (protNum : Byte)

abbrev PacketM := Traced PacketEffect

/-- The memory from the start of the frame on. -/
abbrev FrameMemory := Nat → Byte

def readByte (memory : FrameMemory) (address : Nat) : PacketM Byte := do
  Traced.emit [.read address]
  pure (memory address)

def readShort (memory : FrameMemory) (address : Nat) : PacketM (BitVec 16) := do
  let low ← readByte memory address
  let high ← readByte memory (address + 1)
  pure (high ++ low)

/-- Bytes that are read to be printed. -/
def readBytes (address count : Nat) : PacketM Unit :=
  Traced.emit ((List.range count).map fun i => .read (address + i))

def switchEndian16 (nb : BitVec 16) : BitVec 16 := nb >>> 8 ||| nb <<< 8

/-! ### The handlers -/

/-- `ETHERNET_FRAME`: `dest_mac`, `src_mac`, `ethertype`. -/
def sizeofEthernetFrame : Nat := 14

/-- `IPV4_FRAME`: `version_ihl` at 0, `ttl` at 8, `protocol_num` at 9, `src_ip` at 12, `dst_ip` at 16. -/
def sizeofIpv4Frame : Nat := 20

/-- `IPV6_FRAME`: `protocol_num` at 3, `ttl` at 4, `src_ip` at 5, `dst_ip` at 21. -/
def sizeofIpv6Frame : Nat := 37

def ipv4IhlMask : Byte := 0xF#8

def ipv4VersionMask : Byte := 0xF0#8

/-- `version_ihl&IPV4_IHL_MASK > 5` compares the mask, and what is masked with is the outcome. -/
def ihlTest (versionIhl : Byte) : Byte := versionIhl &&& (if 5#8 < ipv4IhlMask then 1#8 else 0#8)

def transportHandlePacket (packet : Nat) (packetLength : Int) (protNum : Byte) : PacketM Unit :=
  Traced.emit [.transport packet packetLength protNum]

def ipv4HandlePacket (memory : FrameMemory) (packet : Nat) (packetLength : Int) : PacketM Unit := do
  let versionIhl ← readByte memory packet
  if ihlTest versionIhl ≠ 0#8 ∨ (versionIhl &&& ipv4VersionMask) >>> 4 ≠ 4#8 then pure ()
  else do
    let _ttl ← readByte memory (packet + 8)
    readBytes (packet + 12) 4
    readBytes (packet + 16) 4
    let protocolNum ← readByte memory (packet + 9)
    transportHandlePacket (packet + sizeofIpv4Frame) (packetLength - sizeofIpv4Frame) protocolNum

def ipv6HandlePacket (memory : FrameMemory) (packet : Nat) (packetLength : Int) : PacketM Unit := do
  let _ttl ← readByte memory (packet + 4)
  readBytes (packet + 5) 16
  readBytes (packet + 21) 16
  let protocolNum ← readByte memory (packet + 3)
  transportHandlePacket (packet + sizeofIpv6Frame) (packetLength - sizeofIpv6Frame) protocolNum

def arpHandlePacket (_packet : Nat) (_packetLength : Int) : PacketM Unit := pure ()

def ethernetHandlePacket (memory : FrameMemory) (packet : Nat) (packetLength : Int) : PacketM Unit := do
  let ethertype ← readShort memory (packet + 12)
  readBytes (packet + 6) 6
  readBytes packet 6
  if switchEndian16 ethertype = 0x0800#16 then
    ipv4HandlePacket memory (packet + sizeofEthernetFrame) (packetLength - sizeofEthernetFrame)
  else if switchEndian16 ethertype = 0x86DD#16 then
    ipv6HandlePacket memory (packet + sizeofEthernetFrame) (packetLength - sizeofEthernetFrame)
  else if switchEndian16 ethertype = 0x0806#16 then
    arpHandlePacket (packet + sizeofEthernetFrame) (packetLength - sizeofEthernetFrame)
  else pure ()

/-! ### What a handler does -/

section

variable {memory : FrameMemory} {packetLength : Int} {P : PacketEffect → Prop} {α : Type}

theorem within_readByte_bind_iff {address : Nat} {f : Byte → PacketM α} :
    (readByte memory address >>= f).Within P ↔ P (.read address) ∧ (f (memory address)).Within P := by
  refine (Traced.within_bind_of_result rfl).trans (and_congr_left fun _ => ?_)
  exact List.forall_mem_singleton

theorem within_readShort_bind_iff {address : Nat} {f : BitVec 16 → PacketM α} :
    (readShort memory address >>= f).Within P ↔
      P (.read address) ∧ P (.read (address + 1)) ∧ (f (memory (address + 1) ++ memory address)).Within P := by
  refine (Traced.within_bind_of_result rfl).trans ?_
  rw [readShort, within_readByte_bind_iff, within_readByte_bind_iff, and_iff_left (Traced.within_pure _), and_assoc]

theorem within_readBytes_bind_iff {address count : Nat} {f : Unit → PacketM α} :
    (readBytes address count >>= f).Within P ↔ (∀ i < count, P (.read (address + i))) ∧ (f ()).Within P := by
  refine Traced.within_emit_bind_iff.trans (and_congr_left fun _ => ?_)
  rw [List.forall_mem_map]
  exact forall_congr' fun i => imp_congr_left List.mem_range

/-- The number in the last two bytes of the header, the higher one first. -/
def ethertypeOf (memory : FrameMemory) : BitVec 16 := memory 12 ++ memory 13

theorem switchEndian16_append (low high : Byte) : switchEndian16 (high ++ low) = low ++ high := by
  refine BitVec.eq_of_getLsbD_eq fun i hi => ?_
  simp only [switchEndian16, BitVec.getLsbD_or, BitVec.getLsbD_ushiftRight, BitVec.getLsbD_shiftLeft,
    BitVec.getLsbD_append]
  by_cases h : i < 8
  · simp [h]
  · have hlow : i - 8 < 8 := by omega
    simp [h, hlow, hi, BitVec.getLsbD_of_ge high i (by omega)]

theorem forall_lt_add {m n : Nat} {Q : Nat → Prop} :
    (∀ i < m + n, Q i) ↔ (∀ i < m, Q i) ∧ ∀ i < n, Q (m + i) := by
  constructor
  · intro h
    exact ⟨fun i hi => h i (by omega), fun i hi => h (m + i) (by omega)⟩
  · intro h i hi
    by_cases hlt : i < m
    · exact h.1 i hlt
    · have hrest := h.2 (i - m) (by omega)
      rwa [Nat.add_sub_cancel' (not_lt.mp hlt)] at hrest

theorem forall_lt_one (p : Nat → Prop) : (∀ i < 1, p i) ↔ p 0 := by
  constructor
  · exact fun h => h 0 Nat.zero_lt_one
  · exact fun h i hi => Nat.lt_one_iff.mp hi ▸ h

/-- The link layer reads its header and hands on the rest. -/
theorem within_ethernetHandlePacket : (ethernetHandlePacket memory 0 packetLength).Within P ↔
    (∀ i < 14, P (.read i)) ∧
    (ethertypeOf memory = 0x0800#16 → (ipv4HandlePacket memory 14 (packetLength - 14)).Within P) ∧
    (ethertypeOf memory = 0x86DD#16 → (ipv6HandlePacket memory 14 (packetLength - 14)).Within P) := by
  have hreads : (∀ i < 14, P (.read i)) ↔ ((∀ i < 6, P (.read i)) ∧ ∀ i < 6, P (.read (6 + i))) ∧
      P (.read 12) ∧ P (.read 13) := by
    rw [show 14 = 6 + 6 + 1 + 1 from rfl, forall_lt_add, forall_lt_add, forall_lt_add, and_assoc,
      forall_lt_one fun i => P (.read (6 + 6 + i)), forall_lt_one fun i => P (.read (6 + 6 + 1 + i))]
  have hpayload : (if ethertypeOf memory = 0x0800#16 then ipv4HandlePacket memory 14 (packetLength - 14)
      else if ethertypeOf memory = 0x86DD#16 then ipv6HandlePacket memory 14 (packetLength - 14)
      else if ethertypeOf memory = 0x0806#16 then arpHandlePacket 14 (packetLength - 14) else pure ()).Within P ↔
      (ethertypeOf memory = 0x0800#16 → (ipv4HandlePacket memory 14 (packetLength - 14)).Within P) ∧
      (ethertypeOf memory = 0x86DD#16 → (ipv6HandlePacket memory 14 (packetLength - 14)).Within P) := by
    split
    · next hipv4 => simp [hipv4]
    · next hipv4 =>
      split
      · next hipv6 => simp [hipv6]
      · next hipv6 =>
        refine iff_of_true ?_ ⟨fun heq => absurd heq hipv4, fun heq => absurd heq hipv6⟩
        split <;> exact Traced.within_pure _
  rw [ethernetHandlePacket, within_readShort_bind_iff, within_readBytes_bind_iff, within_readBytes_bind_iff,
    switchEndian16_append, hreads, ← hpayload]
  simp only [Nat.zero_add, ethertypeOf]
  tauto

/-- The IPv4 header is read when its first byte is accepted, and the payload is what is behind it. -/
theorem within_ipv4HandlePacket {packet : Nat} : (ipv4HandlePacket memory packet packetLength).Within P ↔
    P (.read packet) ∧ (ihlTest (memory packet) = 0#8 ∧ (memory packet &&& ipv4VersionMask) >>> 4 = 4#8 →
      P (.read (packet + 8)) ∧ (∀ i < 4, P (.read (packet + 12 + i))) ∧ (∀ i < 4, P (.read (packet + 16 + i))) ∧
      P (.read (packet + 9)) ∧ P (.transport (packet + 20) (packetLength - 20) (memory (packet + 9)))) := by
  rw [ipv4HandlePacket, within_readByte_bind_iff]
  refine and_congr_right fun _ => ?_
  split
  · next hrefused =>
    refine iff_of_true (Traced.within_pure _) fun haccepted => ?_
    exact absurd hrefused (not_or.mpr ⟨not_not_intro haccepted.1, not_not_intro haccepted.2⟩)
  · next haccepted =>
    rw [not_or, not_not, not_not] at haccepted
    rw [within_readByte_bind_iff, within_readBytes_bind_iff, within_readBytes_bind_iff, within_readByte_bind_iff,
      transportHandlePacket, Traced.within_emit_iff, List.forall_mem_singleton]
    exact ⟨fun h _ => h, fun h => h haccepted⟩

theorem within_ipv6HandlePacket {packet : Nat} : (ipv6HandlePacket memory packet packetLength).Within P ↔
    P (.read (packet + 4)) ∧ (∀ i < 16, P (.read (packet + 5 + i))) ∧ (∀ i < 16, P (.read (packet + 21 + i))) ∧
      P (.read (packet + 3)) ∧ P (.transport (packet + 37) (packetLength - 37) (memory (packet + 3))) := by
  rw [ipv6HandlePacket, within_readByte_bind_iff, within_readBytes_bind_iff, within_readBytes_bind_iff,
    within_readByte_bind_iff, transportHandlePacket, Traced.within_emit_iff, List.forall_mem_singleton]
  rfl

end

/-! ### Packets -/

section

variable (memory : FrameMemory) (packetLength : Int)

def versionOf : Byte := memory 14 >>> 4

def ihlOf : Byte := memory 14 &&& 0xF#8

/-- No byte at or behind the end of the packet is read. -/
def ReadsPacketOnly : Prop :=
  ∀ address : Nat, .read address ∈ (ethernetHandlePacket memory 0 packetLength).effects → address < packetLength

/-- An IPv4 frame comes to the transport layer when both headers are there, the version is 4 and the header has five
words, and with the payload behind the header. -/
def HandsOnIpv4 : Prop :=
  ethertypeOf memory = 0x0800#16 →
    ((∃ payload length protNum, .transport payload length protNum ∈ (ethernetHandlePacket memory 0 packetLength).effects) ↔
      34 ≤ packetLength ∧ versionOf memory = 4#8 ∧ ihlOf memory = 5#8) ∧
    ∀ payload length protNum, .transport payload length protNum ∈ (ethernetHandlePacket memory 0 packetLength).effects →
      payload = 34 ∧ length = packetLength - 34

/-- What holds of what is read and of what is handed on. -/
def OnEffects (Q : Nat → Prop) (R : Nat → Int → Byte → Prop) : PacketEffect → Prop
  | .read address => Q address
  | .transport payload length protNum => R payload length protNum

variable {Q : Nat → Prop} {R : Nat → Int → Byte → Prop}

theorem within_onEffects_iff {α : Type} {x : PacketM α} : x.Within (OnEffects Q R) ↔
    (∀ address, .read address ∈ x.effects → Q address) ∧
    ∀ payload length protNum, .transport payload length protNum ∈ x.effects → R payload length protNum := by
  constructor
  · intro h
    exact ⟨fun address hmem => h _ hmem, fun payload length protNum hmem => h _ hmem⟩
  · intro h w hw
    cases w with
    | read address => exact h.1 address hw
    | transport payload length protNum => exact h.2 payload length protNum hw

/-- The byte that is accepted has the version, and an even number of words. -/
theorem accepted_iff : ihlTest (memory 14) = 0#8 ∧ (memory 14 &&& ipv4VersionMask) >>> 4 = 4#8 ↔
    versionOf memory = 4#8 ∧ 2 ∣ (ihlOf memory).toNat := by
  rw [versionOf, ihlOf]
  generalize memory 14 = versionIhl
  revert versionIhl
  decide +kernel

theorem readsPacketOnly_iff : ReadsPacketOnly memory packetLength ↔ 14 ≤ packetLength ∧
    (ethertypeOf memory = 0x0800#16 →
      15 ≤ packetLength ∧ (versionOf memory = 4#8 ∧ 2 ∣ (ihlOf memory).toNat → 34 ≤ packetLength)) ∧
    (ethertypeOf memory = 0x86DD#16 → 51 ≤ packetLength) := by
  have hwithin := within_onEffects_iff (x := ethernetHandlePacket memory 0 packetLength)
    (Q := fun address => (address : Int) < packetLength) (R := fun _ _ _ => True)
  rw [and_iff_left fun _ _ _ _ => trivial] at hwithin
  rw [ReadsPacketOnly, ← hwithin, within_ethernetHandlePacket, within_ipv4HandlePacket, within_ipv6HandlePacket,
    accepted_iff]
  dsimp only [OnEffects]
  refine and_congr ?_ (and_congr (imp_congr_right fun _ => and_congr ?_ (imp_congr_right fun _ => ?_))
    (imp_congr_right fun _ => ?_))
  · constructor
    · intro h
      have hlast := h 13 (by decide)
      omega
    · intro h i hi
      omega
  · omega
  · constructor
    · intro h
      have hlast := h.2.2.1 3 (by decide)
      omega
    · intro h
      exact ⟨by omega, fun i hi => by omega, fun i hi => by omega, by omega, trivial⟩
  · constructor
    · intro h
      have hlast := h.2.2.1 15 (by decide)
      omega
    · intro h
      exact ⟨by omega, fun i hi => by omega, fun i hi => by omega, by omega, trivial⟩

/-- All that an IPv4 frame hands on is the payload of the packet that is accepted. -/
theorem forall_transport_iff (htype : ethertypeOf memory = 0x0800#16) (R : Nat → Int → Byte → Prop) :
    (∀ payload length protNum,
      .transport payload length protNum ∈ (ethernetHandlePacket memory 0 packetLength).effects → R payload length protNum) ↔
    (versionOf memory = 4#8 ∧ 2 ∣ (ihlOf memory).toNat → R 34 (packetLength - 34) (memory 23)) := by
  have hwithin := within_onEffects_iff (x := ethernetHandlePacket memory 0 packetLength) (Q := fun _ => True) (R := R)
  rw [and_iff_right fun _ _ => trivial] at hwithin
  have hother : ¬ ethertypeOf memory = 0x86DD#16 := by
    rw [htype]
    decide
  rw [← hwithin, within_ethernetHandlePacket, within_ipv4HandlePacket, accepted_iff, Int.sub_sub]
  simp [htype, OnEffects]

theorem handsOnIpv4_iff : HandsOnIpv4 memory packetLength ↔ (ethertypeOf memory = 0x0800#16 →
    (versionOf memory = 4#8 ∧ 2 ∣ (ihlOf memory).toNat ↔
      34 ≤ packetLength ∧ versionOf memory = 4#8 ∧ ihlOf memory = 5#8)) := by
  refine imp_congr_right fun htype => ?_
  have hreached : (∃ payload length protNum,
      .transport payload length protNum ∈ (ethernetHandlePacket memory 0 packetLength).effects) ↔
      versionOf memory = 4#8 ∧ 2 ∣ (ihlOf memory).toNat := by
    have hnone := forall_transport_iff memory packetLength htype fun _ _ _ => False
    rw [← not_iff_not]
    simp only [not_exists]
    exact hnone
  rw [hreached, and_iff_left]
  exact (forall_transport_iff memory packetLength htype _).mpr fun _ => ⟨rfl, rfl⟩

/-- Only the packet is read, and the right IPv4 frames come to the transport layer, when the frame has its header and is
no IPv4 frame that is taken, or refused by mistake. -/
theorem handlesPacket_iff : ReadsPacketOnly memory packetLength ∧ HandsOnIpv4 memory packetLength ↔
    14 ≤ packetLength ∧
    (ethertypeOf memory = 0x0800#16 → 15 ≤ packetLength ∧
      (versionOf memory = 4#8 → ¬ 2 ∣ (ihlOf memory).toNat ∧ (34 ≤ packetLength → ihlOf memory ≠ 5#8))) ∧
    (ethertypeOf memory = 0x86DD#16 → 51 ≤ packetLength) := by
  have hodd : ihlOf memory = 5#8 → ¬ 2 ∣ (ihlOf memory).toNat := by
    intro heq
    rw [heq]
    decide
  rw [readsPacketOnly_iff, handsOnIpv4_iff]
  tauto

/-- The header of a frame without bytes is read, and an IPv4 frame with the usual first byte `0x45` is not handed on. -/
theorem not_handlesPacket : ¬ (∀ memory packetLength, 0 ≤ packetLength → ReadsPacketOnly memory packetLength) ∧
    ¬ (∀ memory packetLength, 0 ≤ packetLength → HandsOnIpv4 memory packetLength) := by
  constructor
  · intro h
    have hreads := (readsPacketOnly_iff (fun _ => 0#8) 0).mp (h _ _ (by decide))
    exact absurd hreads.1 (by decide)
  · intro h
    have hands := (handsOnIpv4_iff (fun i => if i = 12 then 0x08#8 else if i = 14 then 0x45#8 else 0#8) 34).mp
      (h _ _ (by decide))
    exact absurd (hands (by decide)) (by decide)

end

end Akos
