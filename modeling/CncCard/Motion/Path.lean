import CncCard.Motion.Interpolation
import CncCard.Clocked.Fifo

/-!
The motion path of the card: `fifo33` is read once for each `clk_2ms` period,
`sel_assign` hands its output word to `dda`, and four `interpolation` modules
turn the word's fields into pulses. All modules share the clock, so one step
updates the whole path.
-/

namespace CncCard
open Clocked

structure Clk2ms where
  counter : Nat
  clkout : Bool

def Clk2ms.cleared : Clk2ms := ⟨0, false⟩

def clk2ms (s : Clk2ms) (valid empty : Bool) : Clk2ms :=
  if !empty && valid then
    if s.counter = 0x3d090 then ⟨0, true⟩ else ⟨(s.counter + 1) % 2 ^ 18, false⟩
  else ⟨0, false⟩

inductive Axis where
  | x | y | z | a
  deriving DecidableEq, Repr

/-- The 32-bit command word: a direction bit and a 7-bit step count for each axis. -/
abbrev Command := BitVec 32

def Command.steps (w : Command) : Axis → BitVec 7
  | .x => w.extractLsb' 0 7
  | .y => w.extractLsb' 7 7
  | .z => w.extractLsb' 14 7
  | .a => w.extractLsb' 21 7

def Command.dir (w : Command) : Axis → Bool
  | .x => w.getLsbD 28
  | .y => w.getLsbD 29
  | .z => w.getLsbD 30
  | .a => w.getLsbD 31

/-- The registers of `dda` for one axis and the interpolator they feed. -/
structure Lane where
  data : BitVec 17
  dirReg : Bool
  interp : Interpolation

namespace Lane

def cleared : Lane := ⟨0, false, Interpolation.cleared⟩

def clock (s : Lane) (valid : Bool) (steps : BitVec 7) (dir : Bool) : Lane where
  data := if valid then steps.setWidth 17 else 0
  dirReg := if valid then dir else false
  interp := interpolation s.interp valid s.data

end Lane

structure Dda where
  ddaX : Lane
  ddaY : Lane
  ddaZ : Lane
  ddaA : Lane

def Dda.cleared : Dda := ⟨Lane.cleared, Lane.cleared, Lane.cleared, Lane.cleared⟩

def Dda.lane (s : Dda) : Axis → Lane
  | .x => s.ddaX
  | .y => s.ddaY
  | .z => s.ddaZ
  | .a => s.ddaA

def dda (s : Dda) (valid : Bool) (data : Command) : Dda where
  ddaX := s.ddaX.clock valid (data.extractLsb' 0 7) (data.getLsbD 28)
  ddaY := s.ddaY.clock valid (data.extractLsb' 7 7) (data.getLsbD 29)
  ddaZ := s.ddaZ.clock valid (data.extractLsb' 14 7) (data.getLsbD 30)
  ddaA := s.ddaA.clock valid (data.extractLsb' 21 7) (data.getLsbD 31)

theorem dda_lane (s : Dda) (valid : Bool) (data : Command) (ax : Axis) :
    (dda s valid data).lane ax = (s.lane ax).clock valid (data.steps ax) (data.dir ax) := by
  cases ax <;> rfl

theorem dda_invalid (s : Dda) (data : Command) : dda s false data = Dda.cleared := by
  simp [dda, Lane.clock, interpolation_invalid, Dda.cleared, Lane.cleared]

@[simp] theorem Dda.cleared_lane (ax : Axis) : Dda.cleared.lane ax = Lane.cleared := by
  cases ax <;> rfl

namespace SelAssign

def dataout (empty : Bool) (datain : Command) : Command := if empty then 0 else datain

/-- Every direction and pulse output selects the DDA signal when `valid` is set. -/
def select (valid manual ddaSignal : Bool) : Bool := if valid then ddaSignal else manual

end SelAssign

structure MotionPath where
  clk2ms : Clk2ms
  fifo33 : RegFifo Command 2048
  fifo31 : RegFifo (BitVec 64) 2048
  dda : Dda

structure MotionInput where
  valid : Bool
  fifo33Write : Option Command
  fifo31Write : Option (BitVec 64)
  dirJog : Axis → Bool
  pulsJog : Axis → Bool

/-- Interpolation is enabled and nothing is written. -/
def MotionInput.enabled : MotionInput :=
  ⟨true, none, none, fun _ => false, fun _ => false⟩

namespace MotionPath

/-- `u_sel_assign` takes its data from `fifo33` and its `empty` flag from `fifo31`. -/
def ddaDatain (s : MotionPath) : Command :=
  SelAssign.dataout s.fifo31.isEmpty s.fifo33.q

def clock (s : MotionPath) (i : MotionInput) : MotionPath where
  clk2ms := CncCard.clk2ms s.clk2ms i.valid s.fifo33.isEmpty
  fifo33 := s.fifo33.clock i.fifo33Write s.clk2ms.clkout
  fifo31 := s.fifo31.clock i.fifo31Write false
  dda := CncCard.dda s.dda i.valid s.ddaDatain

def puls (s : MotionPath) (i : MotionInput) (ax : Axis) : Bool :=
  SelAssign.select i.valid (i.pulsJog ax) (s.dda.lane ax).interp.q

def dir (s : MotionPath) (i : MotionInput) (ax : Axis) : Bool :=
  SelAssign.select i.valid (i.dirJog ax) (s.dda.lane ax).dirReg

/-- All registers cleared; the queues hold what they were given. -/
def start (fifo33 : RegFifo Command 2048) (fifo31 : RegFifo (BitVec 64) 2048) :
    MotionPath :=
  ⟨Clk2ms.cleared, fifo33, fifo31, Dda.cleared⟩

def run (fifo33 : RegFifo Command 2048) (fifo31 : RegFifo (BitVec 64) 2048)
    (inp : Nat → MotionInput) : Nat → MotionPath :=
  trace clock (start fifo33 fifo31) inp

/-- The word that leaves `fifo33` in this cycle, if any. -/
def pop (s : MotionPath) : List Command := s.fifo33.taken s.clk2ms.clkout

def popped (r : Nat → MotionPath) : Nat → List Command
  | 0 => []
  | t + 1 => popped r t ++ (r t).pop

theorem fifo31_ne_nil {s : MotionPath} (h : s.fifo31.words ≠ []) (i : MotionInput) :
    (s.clock i).fifo31.words ≠ [] :=
  Fifo.clock_words_ne_nil h _

end MotionPath

end CncCard
