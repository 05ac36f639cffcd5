import CncCard.Clocked.Trace
import Mathlib.Algebra.Group.Nat.Defs

/-!
The homing state machines `state_ctrl` and `state_ctrl_xy`. Three blocks run on
`i_clk`: the state machine itself, the divider for the ROM clock and the step
pulse generator. A fourth runs on the rising edges of the divided clock and reads
the next deceleration value from the ROM `line_rom_ip`, whose memory block is the
vendor's and enters as a parameter.

The two modules differ in the start condition, in whether `LIMIT` clears
`r_state3_cnt` and in whether an unused state stops the pulses.
-/

namespace CncCard
open Clocked

inductive HomingState where
  | idle | fast | slow | back | limit
  /-- The codes 101, 110 and 111. -/
  | unused (code : Fin 3)
  deriving DecidableEq, Repr

/-- The deceleration ROM: what an enabled edge of its clock does, and its output. -/
structure LineRom where
  State : Type
  clock : State → Nat → State
  q : State → BitVec 26

structure StateCtrl (rom : LineRom) where
  rState : HomingState
  rCntData : Nat
  rDir : Bool
  rPluseZero : Bool
  rState3Cnt : Nat
  rState2Zero : Bool
  rClkdivCnt : Nat
  rClkdiv : Bool
  rRomEna : Bool
  rRomCnt : Nat
  rRomAddra : Nat
  rPluse : Bool
  rSet : Bool
  rCnt : Nat
  lineRom : rom.State

/-- Where the branches of the two state machines differ. -/
structure HomingVariant where
  limitClears : Bool
  defaultStops : Bool

def c2s : Nat := 200000000
def c40ms : Nat := 1600000
def c20ms : Nat := 800000

variable {rom : LineRom}

namespace StateCtrl

def powerUp (lineRom : rom.State) : StateCtrl rom :=
  ⟨.idle, 0, false, false, 0, false, 0, false, false, 0, 0, false, false, 0, lineRom⟩

def nextState (s : StateCtrl rom) (start b c : Bool) : HomingState :=
  match s.rState with
  | .idle => if start then .fast else .idle
  | .fast => if b then .slow else if c then .limit else .fast
  | .slow => if s.rState2Zero then .idle else .slow
  | .back => if s.rState3Cnt = c2s then .fast else .back
  | .limit => if b then .back else .limit
  | .unused _ => .idle

/-- The block of the state machine. -/
def main (v : HomingVariant) (s : StateCtrl rom) (start b c : Bool) : StateCtrl rom :=
  { s with
    rState := s.nextState start b c
    rPluseZero :=
      match s.rState with
      | .idle => true
      | .unused _ => if v.defaultStops then true else s.rPluseZero
      | _ => false
    rCntData :=
      match s.rState with
      | .slow => (rom.q s.lineRom).toNat
      | _ => 4000
    rDir :=
      match s.rState with
      | .back | .limit => false
      | _ => true
    rState3Cnt :=
      match s.rState with
      | .back => if s.rState3Cnt < c2s then (s.rState3Cnt + 1) % 2 ^ 28 else s.rState3Cnt
      | .limit => if v.limitClears then 0 else s.rState3Cnt
      | _ => 0 }

/-- The divider of the ROM clock. -/
def divide (s old : StateCtrl rom) : StateCtrl rom :=
  { s with
    rClkdivCnt := if old.rClkdivCnt < c40ms - 1 then (old.rClkdivCnt + 1) % 2 ^ 21 else 0
    rClkdiv := decide (old.rClkdivCnt < c20ms) }

/-- The step pulse. `r_cnt_data - 1` is a 32-bit difference, so it is a large number
while the register still holds its power-up value. -/
def pulse (s old : StateCtrl rom) : StateCtrl rom :=
  { s with
    rCnt :=
      if old.rCnt < (old.rCntData + 2 ^ 32 - 1) % 2 ^ 32 then (old.rCnt + 1) % 2 ^ 26 else 0
    rPluse :=
      if old.rPluseZero then false else decide (old.rCnt < old.rCntData / 2) }

/-- A rising edge of the ROM clock; it sees the state that the same edge of `i_clk` sets. -/
def romEdge (s : StateCtrl rom) : StateCtrl rom :=
  { s with
    rRomCnt :=
      if s.rState = .slow then
        if s.rRomCnt < 100 then (s.rRomCnt + 1) % 2 ^ 7 else s.rRomCnt
      else 0
    rRomEna := decide (s.rRomCnt < 100)
    rRomAddra := s.rRomCnt
    rState2Zero := decide (s.rRomCnt = 100)
    rSet := decide (s.rRomCnt = 100)
    lineRom := if s.rRomEna then rom.clock s.lineRom s.rRomAddra else s.lineRom }

def clock (v : HomingVariant) (s : StateCtrl rom) (start b c : Bool) : StateCtrl rom :=
  let next := ((s.main v start b c).divide s).pulse s
  if !s.rClkdiv && next.rClkdiv then next.romEdge else next

/-- The inputs of a cycle; `start` is the start condition of the variant. -/
structure Keys where
  start : Bool
  b : Bool
  c : Bool

def runFrom (v : HomingVariant) (s : StateCtrl rom) (inp : Nat → Keys) : Nat → StateCtrl rom :=
  trace (fun s i => s.clock v i.start i.b i.c) s inp

def run (v : HomingVariant) (lineRom : rom.State) (inp : Nat → Keys) : Nat → StateCtrl rom :=
  runFrom v (powerUp lineRom) inp

theorem clock_rState (v : HomingVariant) (s : StateCtrl rom) (start b c : Bool) :
    (s.clock v start b c).rState = s.nextState start b c := by
  simp only [clock]
  split <;> rfl

/-- The three unused codes are never entered. -/
theorem nextState_ne_unused (s : StateCtrl rom) (start b c : Bool) (code : Fin 3) :
    s.nextState start b c ≠ .unused code := by
  intro h
  unfold nextState at h
  split at h
  case h_6 => cases h
  all_goals
    repeat' split at h
    all_goals cases h

def entersFast (s : StateCtrl rom) (start : Bool) : Bool :=
  match s.rState with
  | .idle => start
  | .back => s.rState3Cnt == c2s
  | _ => false

theorem nextState_of_entersFast {s : StateCtrl rom} {start : Bool} (b c : Bool)
    (h : s.entersFast start = true) : s.nextState start b c = .fast := by
  simp only [entersFast] at h
  split at h
  · next hs => simp [nextState, hs, h]
  · next hs => simp [nextState, hs, eq_of_beq h]
  · cases h

/-- `FAST` is reached from itself or by one of the two entries, and a limit pulse
that is seen in it ends it. -/
theorem fast_of_nextState {s : StateCtrl rom} {start b c : Bool}
    (h : s.nextState start b c = .fast) :
    s.entersFast start = true ∨ (s.rState = .fast ∧ c = false) := by
  simp only [nextState] at h
  split at h
  · next hs =>
      cases start with
      | false => simp at h
      | true => simp [entersFast, hs]
  · next hs =>
      cases b <;> cases c <;> simp_all
  · next hs => split at h <;> cases h
  · next hs =>
      split at h
      · next hend => simp [entersFast, hs, hend]
      · cases h
  · next hs => split at h <;> cases h
  · cases h

end StateCtrl

def stateCtrl (s : StateCtrl rom) (iKeyA iKeyB iKeyC : Bool) : StateCtrl rom :=
  s.clock ⟨false, false⟩ iKeyA iKeyB iKeyC

def stateCtrlXy (s : StateCtrl rom) (iKeyA iKeyB iKeyC zFinished : Bool) : StateCtrl rom :=
  s.clock ⟨true, true⟩ (iKeyA && zFinished) iKeyB iKeyC

end CncCard
