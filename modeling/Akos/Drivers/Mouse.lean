import Akos.Winsys.Dragging
import Mathlib.Data.Nat.Bitwise

/-!
# Following the mouse

The part of `mouse_handler` in `mouse.c` that moves the cursor, in the widths of the source: the movements are put into
variables of eight bits, the position is one of sixteen bits.
-/

namespace Akos

structure MousePacket where
  flags : BitVec 8
  xmov : BitVec 8
  ymov : BitVec 8
  zmov : BitVec 8

/-- `MOUSEX`, `MOUSEY`, and whether packets are handled. -/
structure Mouse where
  mousex : BitVec 16
  mousey : BitVec 16
  mouseEnabled : Bool
  mouseInstalled : Bool

namespace MousePacket

variable (p : MousePacket)

/-- `int8_t rel_x = xmov - ((flags << 4) & 0x100);` -/
def relX : BitVec 8 := (p.xmov.setWidth 32 - (p.flags.setWidth 32 <<< 4 &&& 0x100#32)).setWidth 8

/-- `int8_t rel_y = ymov - ((flags << 3) & 0x100);` -/
def relY : BitVec 8 := (p.ymov.setWidth 32 - (p.flags.setWidth 32 <<< 3 &&& 0x100#32)).setWidth 8

/-- The movement of nine bits, with its sign among the flags. -/
def movementX : Int := (BitVec.ofBool (p.flags.getLsbD 4) ++ p.xmov).toInt

def movementY : Int := (BitVec.ofBool (p.flags.getLsbD 5) ++ p.ymov).toInt

end MousePacket

namespace Mouse

/-- `MOUSEX + rel_x*2` and `MOUSEY - rel_y*2`, before they are put into 16 bits. -/
def sumX (m : Mouse) (p : MousePacket) : BitVec 32 := m.mousex.signExtend 32 + p.relX.signExtend 32 * 2#32

def sumY (m : Mouse) (p : MousePacket) : BitVec 32 := m.mousey.signExtend 32 - p.relY.signExtend 32 * 2#32

def clampX (x : BitVec 16) : BitVec 16 := if x.toInt < 0 then 0#16 else if 1280 ≤ x.toInt then 1279#16 else x

def clampY (y : BitVec 16) : BitVec 16 := if y.toInt < 16 then 16#16 else if 1024 ≤ y.toInt then 1023#16 else y

def mouseHandler (m : Mouse) (p : MousePacket) : Mouse :=
  if m.mouseEnabled = false ∨ m.mouseInstalled = false then m
  else { m with mousex := clampX ((m.sumX p).setWidth 16), mousey := clampY ((m.sumY p).setWidth 16) }

/-- `mouse_install` -/
def installed : Mouse := ⟨0#16, 0#16, true, true⟩

end Mouse

/-! ### Runs -/

/-- The position after the whole movement. -/
def followX (x : Int) (p : MousePacket) : Int := max 0 (min 1279 (x + 2 * p.movementX))

def followY (y : Int) (p : MousePacket) : Int := max 16 (min 1023 (y - 2 * p.movementY))

/-- Every packet moves the mouse by the whole movement up to the border, and the sums do not leave 16 bits. -/
def FollowsMouse : Mouse → List MousePacket → Prop
  | _, [] => True
  | m, p :: rest =>
    (m.mouseHandler p).mousex.toInt = followX m.mousex.toInt p ∧
    (m.mouseHandler p).mousey.toInt = followY m.mousey.toInt p ∧
    (m.sumX p).toInt = ((m.sumX p).setWidth 16).toInt ∧ (m.sumY p).toInt = ((m.sumY p).setWidth 16).toInt ∧
    FollowsMouse (m.mouseHandler p) rest

/-- A movement that eight bits hold, or one at a border where the wrong movement ends as well. -/
def HeldX (x : Int) (p : MousePacket) : Prop := (-128 ≤ p.movementX ∧ p.movementX < 128) ∨ (p.movementX = -256 ∧ x = 0)

def HeldY (y : Int) (p : MousePacket) : Prop :=
  (-128 ≤ p.movementY ∧ p.movementY < 128) ∨ (p.movementY = -256 ∧ y = 1023) ∨ (248 ≤ p.movementY ∧ y = 0)

/-- The movements of all packets, at the positions they lead to, are held. -/
def MovementsHeld : Int → Int → List MousePacket → Prop
  | _, _, [] => True
  | x, y, p :: rest => HeldX x p ∧ HeldY y p ∧ MovementsHeld (followX x p) (followY y p) rest

/-! ### One packet -/

variable {m : Mouse} {p : MousePacket}

/-- The sign is in no bit that is kept. -/
theorem setWidth_sub_sign (mov : BitVec 8) (flags : BitVec 32) :
    (mov.setWidth 32 - (flags &&& 0x100#32)).setWidth 8 = mov := by
  have hsign : (flags &&& 0x100#32).toNat = (flags.toNat.testBit 8).toNat * 2 ^ 8 := by
    exact (BitVec.toNat_and _ _).trans (Nat.and_two_pow flags.toNat 8)
  have hle := Bool.toNat_le (flags.toNat.testBit 8)
  refine BitVec.eq_of_toNat_eq ?_
  rw [BitVec.toNat_setWidth, BitVec.toNat_sub, hsign, BitVec.toNat_setWidth]
  omega

theorem relX_eq (p : MousePacket) : p.relX = p.xmov := setWidth_sub_sign _ _

theorem relY_eq (p : MousePacket) : p.relY = p.ymov := setWidth_sub_sign _ _

theorem toInt_ofBool_append (sign : Bool) (mov : BitVec 8) :
    (BitVec.ofBool sign ++ mov).toInt = mov.toNat - if sign then 256 else 0 := by
  cases sign <;> revert mov <;> decide +kernel

theorem toInt_byte (mov : BitVec 8) : mov.toInt = if mov.toNat < 128 then (mov.toNat : Int) else mov.toNat - 256 := by
  revert mov
  decide +kernel

theorem toInt_setWidth_small {v : BitVec 32} (hle : -2 ^ 15 ≤ v.toInt) (hlt : v.toInt < 2 ^ 15) :
    (v.setWidth 16).toInt = v.toInt := by
  have hcond := BitVec.toInt_eq_toNat_cond v
  rw [BitVec.toInt_setWidth, Int.bmod_def]
  split at hcond <;> split <;> omega

/-- Eight bits of movement, doubled in 32 bits. -/
theorem toInt_doubled (mov : BitVec 8) : (mov.signExtend 32 * 2#32).toInt = 2 * mov.toInt := by
  have hmov := mov.toInt_lt
  have hmov' := mov.le_toInt
  rw [BitVec.toInt_mul, BitVec.toInt_signExtend_of_le (by decide), show (2#32).toInt = 2 from rfl,
    Int.bmod_eq_of_le (by omega) (by omega), Int.mul_comm]

theorem toInt_sumX (m : Mouse) (p : MousePacket) : (m.sumX p).toInt = m.mousex.toInt + 2 * p.xmov.toInt := by
  have hx := m.mousex.toInt_lt
  have hx' := m.mousex.le_toInt
  have hmov := p.xmov.toInt_lt
  have hmov' := p.xmov.le_toInt
  rw [Mouse.sumX, relX_eq, BitVec.toInt_add, BitVec.toInt_signExtend_of_le (by decide), toInt_doubled,
    Int.bmod_eq_of_le (by omega) (by omega)]

theorem toInt_sumY (m : Mouse) (p : MousePacket) : (m.sumY p).toInt = m.mousey.toInt - 2 * p.ymov.toInt := by
  have hy := m.mousey.toInt_lt
  have hy' := m.mousey.le_toInt
  have hmov := p.ymov.toInt_lt
  have hmov' := p.ymov.le_toInt
  rw [Mouse.sumY, relY_eq, BitVec.toInt_sub, BitVec.toInt_signExtend_of_le (by decide), toInt_doubled,
    Int.bmod_eq_of_le (by omega) (by omega)]

theorem toInt_clampX (x : BitVec 16) : (Mouse.clampX x).toInt = max 0 (min 1279 x.toInt) := by
  rw [Mouse.clampX]
  split
  · rw [BitVec.toInt_zero]
    omega
  · split
    · rw [show (1279#16).toInt = 1279 from rfl]
      omega
    · omega

theorem toInt_clampY (y : BitVec 16) : (Mouse.clampY y).toInt = max 16 (min 1023 y.toInt) := by
  rw [Mouse.clampY]
  split
  · rw [show (16#16).toInt = 16 from rfl]
    omega
  · split
    · rw [show (1023#16).toInt = 1023 from rfl]
      omega
    · omega

/-- Where the mouse can be: at the start above its border, and from the first packet on inside. -/
structure Mouse.OnScreen (m : Mouse) : Prop where
  enabled : m.mouseEnabled = true
  installed : m.mouseInstalled = true
  x_nonneg : 0 ≤ m.mousex.toInt
  x_lt : m.mousex.toInt < 1280
  y_cases : m.mousey.toInt = 0 ∨ 16 ≤ m.mousey.toInt
  y_lt : m.mousey.toInt < 1024

/-- One packet moves the mouse by what eight bits make of the movement, and no sum leaves 16 bits. -/
theorem mouseHandler_spec (h : m.OnScreen) (p : MousePacket) : (m.mouseHandler p).OnScreen ∧
    (m.mouseHandler p).mousex.toInt = max 0 (min 1279 (m.mousex.toInt + 2 * p.xmov.toInt)) ∧
    (m.mouseHandler p).mousey.toInt = max 16 (min 1023 (m.mousey.toInt - 2 * p.ymov.toInt)) ∧
    (m.sumX p).toInt = ((m.sumX p).setWidth 16).toInt ∧ (m.sumY p).toInt = ((m.sumY p).setWidth 16).toInt := by
  obtain ⟨henabled, hinstalled, hx, hx', hy, hy'⟩ := h
  have hmovX := p.xmov.toInt_lt
  have hmovX' := p.xmov.le_toInt
  have hmovY := p.ymov.toInt_lt
  have hmovY' := p.ymov.le_toInt
  have hsumX := toInt_sumX m p
  have hsumY := toInt_sumY m p
  have hfitsX := toInt_setWidth_small (v := m.sumX p) (by omega) (by omega)
  have hfitsY := toInt_setWidth_small (v := m.sumY p) (by omega) (by omega)
  have hhandled : m.mouseHandler p =
      { m with
        mousex := Mouse.clampX ((m.sumX p).setWidth 16)
        mousey := Mouse.clampY ((m.sumY p).setWidth 16) } := by
    rw [Mouse.mouseHandler, if_neg (by simp [henabled, hinstalled])]
  have hnewX := toInt_clampX ((m.sumX p).setWidth 16)
  have hnewY := toInt_clampY ((m.sumY p).setWidth 16)
  rw [hfitsX, hsumX] at hnewX
  rw [hfitsY, hsumY] at hnewY
  rw [hhandled]
  dsimp only
  refine ⟨⟨henabled, hinstalled, ?_, ?_, ?_, ?_⟩, hnewX, hnewY, hfitsX.symm, hfitsY.symm⟩ <;> dsimp only <;> omega

/-- The window system moves its mouse in the same way. -/
theorem moveMouse_eq (h : m.OnScreen) (p : MousePacket) (s : Winsys.Desktop) (hx : s.mouseX = m.mousex.toInt)
    (hy : s.mouseY = m.mousey.toInt) :
    (s.moveMouse p.relX.toInt p.relY.toInt).mouseX = (m.mouseHandler p).mousex.toInt ∧
    (s.moveMouse p.relX.toInt p.relY.toInt).mouseY = (m.mouseHandler p).mousey.toInt := by
  obtain ⟨-, hnewX, hnewY, -, -⟩ := mouseHandler_spec h p
  rw [hnewX, hnewY, relX_eq, relY_eq, Winsys.Desktop.moveMouse, hx, hy]
  dsimp only [Winsys.pixelWidth, Winsys.pixelHeight, Winsys.charHeight]
  constructor <;> omega

theorem heldX_iff {x : Int} (hx : 0 ≤ x) (hlt : x < 1280) (p : MousePacket) :
    max 0 (min 1279 (x + 2 * p.xmov.toInt)) = followX x p ↔ HeldX x p := by
  have hbyte := p.xmov.isLt
  rw [followX, HeldX, MousePacket.movementX, toInt_ofBool_append, toInt_byte]
  split <;> split <;> omega

theorem heldY_iff {y : Int} (hy : y = 0 ∨ 16 ≤ y) (hlt : y < 1024) (p : MousePacket) :
    max 16 (min 1023 (y - 2 * p.ymov.toInt)) = followY y p ↔ HeldY y p := by
  have hbyte := p.ymov.isLt
  rw [followY, HeldY, MousePacket.movementY, toInt_ofBool_append, toInt_byte]
  split <;> split <;> omega

/-! ### All packets -/

theorem followsMouse_iff_of_onScreen {packets : List MousePacket} (h : m.OnScreen) :
    FollowsMouse m packets ↔ MovementsHeld m.mousex.toInt m.mousey.toInt packets := by
  induction packets generalizing m with
  | nil => rfl
  | cons p rest ih =>
    obtain ⟨hnext, hnewX, hnewY, hfitsX, hfitsY⟩ := mouseHandler_spec h p
    have hX := heldX_iff h.x_nonneg h.x_lt p
    have hY := heldY_iff h.y_cases h.y_lt p
    rw [← hnewX] at hX
    rw [← hnewY] at hY
    rw [FollowsMouse, MovementsHeld, hX, hY, and_iff_right hfitsX, and_iff_right hfitsY, ih hnext]
    refine and_congr_right fun hheldX => and_congr_right fun hheldY => ?_
    rw [hX.mpr hheldX, hY.mpr hheldY]

/-- The mouse is followed through every run of packets whose movements are held by eight bits, or are wrong where the
border makes up for it, and through no other run. -/
theorem followsMouse_iff (packets : List MousePacket) :
    FollowsMouse Mouse.installed packets ↔ MovementsHeld 0 0 packets :=
  followsMouse_iff_of_onScreen ⟨rfl, rfl, by decide, by decide, Or.inl rfl, by decide⟩

/-- A movement of 200 to the right is taken for one of 56 to the left. -/
theorem not_followsMouse : ¬ (∀ packets, FollowsMouse Mouse.installed packets) := by
  intro h
  have hmoved := (h [⟨0x08#8, 0xC8#8, 0#8, 0#8⟩]).1
  exact absurd hmoved (by decide +kernel)

end Akos
