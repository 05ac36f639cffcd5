import CncCard.Ports
import Mathlib.Data.BitVec

/-!
The register file of `txproc`: the registers that the bus `extdq` can write, their
BAR1 addresses and what a clock edge does to each. The position, feedback and speed
registers of an axis are copies of one design and take the axis as an argument.

`posx_real_reg` and its seven siblings, and `aux_back_reg`, are assigned in two
`always` blocks. When both assign at one edge, the language leaves open which value
stays; the input `race` says which.
-/

namespace CncCard.Pcie

abbrev Word := BitVec 32

inductive Axis where
  | x | y | z | a
  deriving DecidableEq, Repr

def Axis.index : Axis → Nat
  | .x => 0
  | .y => 1
  | .z => 2
  | .a => 3

inductive Reg where
  | intreg | headreg | countreg | cmdreg | pctocardreg | dcsreg | mcmreg
  | posReg (axis : Axis)
  | posRefReg (axis : Axis)
  | posRealReg (axis : Axis)
  | posBreakReg (axis : Axis)
  | coreg (n : Fin 8)
  | jogPosReg (axis : Axis)
  | jogNegReg (axis : Axis)
  | szeroSoftreg | auxBackReg | auxCtlReg
  | cardPosReg (axis : Axis)
  | spdReg (axis : Axis)
  | cardPosRefReg (axis : Axis)
  | cardPosRealReg (axis : Axis)
  | mCoolReg | mCwReg | mAtcwReg
  deriving DecidableEq, Repr

namespace Reg

def byteAddress : Reg → Nat
  | intreg => 0x04
  | headreg => 0x08
  | countreg => 0x0C
  | cmdreg => 0x10
  | pctocardreg => 0x14
  | dcsreg => 0x18
  | mcmreg => 0x1C
  | posReg axis => 0x20 + 4 * axis.index
  | posRefReg axis => 0x30 + 4 * axis.index
  | posRealReg axis => 0x40 + 4 * axis.index
  | posBreakReg axis => 0x50 + 4 * axis.index
  | coreg n => 0x60 + 4 * n
  | jogPosReg axis => 0x80 + 4 * axis.index
  | jogNegReg axis => 0x90 + 4 * axis.index
  | szeroSoftreg => 0xA0
  | auxBackReg => 0xA8
  | auxCtlReg => 0xAC
  | cardPosReg axis => 0xC0 + 4 * axis.index
  | spdReg axis => 0xD0 + 4 * axis.index
  | cardPosRefReg axis => 0xE0 + 4 * axis.index
  | cardPosRealReg axis => 0x100 + 4 * axis.index
  | mCoolReg => 0x110
  | mCwReg => 0x114
  | mAtcwReg => 0x118

/-- The value of `ext_add` that selects the register. -/
def address (r : Reg) : BitVec 22 := BitVec.ofNat 22 r.byteAddress

end Reg

/-- What the registers read besides the bus. -/
structure RegInput where
  extIntReq : Bool
  setRef : Bool
  pos : Axis → Word
  cardPos : Axis → Word
  delta : Axis → Word
  /-- `s1` to `s6`. -/
  s : Fin 6 → Bool
  auxBack : Word
  /-- The value of the block with the reset stays. -/
  race : Bool

abbrev RegFile := Reg → Word

/-- A register that is assigned without a write in each cycle and again by a write. -/
def doubleDriven (race written : Bool) (value extdq : Word) : Word :=
  if written && race then extdq else value

/-- `dcsreg` samples the switches into its low bits. -/
def sampleSwitches (old : Word) (s : Fin 6 → Bool) : Word :=
  old.extractLsb 31 6 ++ BitVec.ofBool (s 5) ++ BitVec.ofBool (s 4) ++ BitVec.ofBool (s 3) ++
    BitVec.ofBool (s 2) ++ BitVec.ofBool (s 1) ++ BitVec.ofBool (s 0)

namespace RegFile

/-- `cmdreg` keeps its high half in a reset. -/
def reset (f : RegFile) : RegFile
  | .intreg => 0x00000002
  | .countreg => 0x00000040
  | .cmdreg => (f .cmdreg).extractLsb 31 16 ++ 0#16
  | .coreg n => if n < 4 then 0x00000001 else 0x00000000
  | _ => 0x00000000

/-- The clock edge for the registers that the state machine of `txproc` does not
touch; `written r` says that the bus writes `extdq` to `r`. -/
def clock (f : RegFile) (i : RegInput) (written : Reg → Bool) (extdq : Word) : RegFile
  | .intreg =>
      if written .intreg then extdq
      else (f .intreg).extractLsb 31 1 ++ BitVec.ofBool i.extIntReq
  | .posReg axis => if written (.posReg axis) then extdq else i.pos axis
  | .cardPosReg axis => if written (.cardPosReg axis) then extdq else i.cardPos axis
  | .posRefReg axis =>
      if i.setRef then f (.posReg axis)
      else if written (.posRefReg axis) then extdq else f (.posRefReg axis)
  | .cardPosRefReg axis =>
      if i.setRef then f (.cardPosReg axis)
      else if written (.cardPosRefReg axis) then extdq else f (.cardPosRefReg axis)
  | .posRealReg axis =>
      doubleDriven i.race (written (.posRealReg axis)) (f (.posReg axis) - f (.posRefReg axis))
        extdq
  | .cardPosRealReg axis =>
      doubleDriven i.race (written (.cardPosRealReg axis))
        (f (.cardPosReg axis) - f (.cardPosRefReg axis)) extdq
  | .auxBackReg => doubleDriven i.race (written .auxBackReg) i.auxBack extdq
  | .posBreakReg axis =>
      if i.s 0 || i.s 1 || i.s 2 || i.s 3 || i.s 4 || i.s 5 then f (.posRealReg axis)
      else if written (.posBreakReg axis) then extdq else f (.posBreakReg axis)
  | .spdReg axis => if written (.spdReg axis) then extdq else i.delta axis
  | .dcsreg => if written .dcsreg then extdq else sampleSwitches (f .dcsreg) i.s
  | r => if written r then extdq else f r

end RegFile

end CncCard.Pcie
