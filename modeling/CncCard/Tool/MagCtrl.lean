import CncCard.Clocked.Hold
import CncCard.Clocked.Trace
import Mathlib.Data.BitVec

/-!
The control of the tool magazine `tool_mag_ctrl`. The auxiliary command word enables the
magazine, sends it forward or back and turns it to a tool; the rotation counts the
pockets that pass the sensor. Forward and backward are latches, each taken back by its
own end switch only.
-/

namespace CncCard
open Clocked

structure ToolMagInput where
  /-- The reset, active low. -/
  rstTm : Bool
  auxData : BitVec 32
  aheFin : Bool
  backFin : Bool
  rotCount : Bool
  clrCounts : Bool

namespace ToolMagInput

def op (i : ToolMagInput) : BitVec 4 := i.auxData.extractLsb 3 0

/-- The `case` on the tool field. -/
def toolField (auxData : BitVec 32) : Option (BitVec 20) :=
  let n := auxData.extractLsb 8 4
  if 1 ≤ n.toNat ∧ n.toNat ≤ 24 then some (n.setWidth 20) else none

def tool (i : ToolMagInput) : Option (BitVec 20) := toolField i.auxData

end ToolMagInput

structure ToolMagCtrl where
  targetNumber : BitVec 20
  rotNumber : BitVec 20
  countPul : BitVec 20
  rotState : Bool
  timeDelay : BitVec 16
  timeDelayTwo : BitVec 7
  auxFeedback : BitVec 32
  enableTlmag : Bool
  go : Bool
  back : Bool
  rotDir : Bool
  rot : Bool
  toolLoos : Bool
  useAxis8 : Bool

namespace ToolMagCtrl

/-- The reset branches. `target_number`, `use_axis8` and the delay counters have none. -/
def reset (s : ToolMagCtrl) : ToolMagCtrl :=
  { s with
    rotNumber := 0
    rot := false
    rotDir := false
    enableTlmag := false
    go := false
    back := false
    toolLoos := false
    rotState := false
    auxFeedback := 0 }

/-- The sensor has been low long enough to count a pocket. -/
def counts (s : ToolMagCtrl) (i : ToolMagInput) : Bool :=
  !i.rotCount && s.timeDelayTwo == 0x7d

def feedback (s : ToolMagCtrl) (i : ToolMagInput) : BitVec 32 :=
  if !i.backFin && !s.enableTlmag then 0x40
  else if !s.rotState then 0x08
  else 0

end ToolMagCtrl

/-- The assignment that clears `target_number` at the goal is not seen: the `case` on the
tool field assigns it in every cycle. -/
def toolMagCtrl (s : ToolMagCtrl) (i : ToolMagInput) : ToolMagCtrl :=
  if !i.rstTm then s.reset
  else
    { targetNumber := i.tool.getD s.targetNumber
      rotNumber :=
        if i.clrCounts then 0
        else if s.counts i then s.rotNumber + 1
        else s.rotNumber
      timeDelayTwo :=
        if i.clrCounts then 0
        else if i.rotCount then s.timeDelayTwo
        else if s.timeDelayTwo = 0x7d then 0
        else s.timeDelayTwo + 1
      rot := s.rotState && (if s.timeDelay = 0x3d09 then !s.rot else s.rot)
      rotDir := s.rotState && (s.timeDelay == 0x3d09 || s.rotDir)
      countPul :=
        if !s.rotState then 0
        else if s.timeDelay = 0x3d09 then s.countPul + 1
        else s.countPul
      timeDelay :=
        if !s.rotState then 0
        else if s.timeDelay = 0x3d09 then 0
        else s.timeDelay + 1
      rotState :=
        if i.op = 0b1010 then true
        else if s.rotNumber = s.targetNumber then false
        else s.rotState
      useAxis8 :=
        if i.op = 0b1010 then true
        else if s.rotNumber = s.targetNumber then false
        else s.useAxis8
      enableTlmag :=
        if i.op = 0b0101 then false
        else if i.op = 0b0100 then true
        else s.enableTlmag
      go :=
        if !i.aheFin then false
        else if i.op = 0b0110 then true
        else s.go
      back :=
        if !i.backFin then false
        else if i.op = 0b0111 then true
        else s.back
      toolLoos :=
        if i.op = 0b1001 then false
        else if i.op = 0b1000 then true
        else s.toolLoos
      auxFeedback := s.feedback i }

namespace ToolMagCtrl

variable (s : ToolMagCtrl) (i : ToolMagInput)

theorem step_reset (h : i.rstTm = false) : toolMagCtrl s i = s.reset := by
  simp [toolMagCtrl, h]

theorem step_go :
    (toolMagCtrl s i).go = ((i.rstTm && i.aheFin) && (decide (i.op = 0b0110) || s.go)) := by
  simp only [toolMagCtrl, reset]
  cases i.rstTm <;> cases i.aheFin <;> by_cases h : i.op = 0b0110 <;> simp [h]

theorem step_back :
    (toolMagCtrl s i).back = ((i.rstTm && i.backFin) && (decide (i.op = 0b0111) || s.back)) := by
  simp only [toolMagCtrl, reset]
  cases i.rstTm <;> cases i.backFin <;> by_cases h : i.op = 0b0111 <;> simp [h]

def run (inp : Nat → ToolMagInput) : Nat → ToolMagCtrl := trace toolMagCtrl s inp

theorem run_succ (inp : Nat → ToolMagInput) (t : Nat) :
    run s inp (t + 1) = toolMagCtrl (run s inp t) (inp t) := rfl

/-- The command has been given, and neither its end switch nor the reset has been low
from then on. -/
def Underway (op : BitVec 4) (fin : ToolMagInput → Bool) (inp : Nat → ToolMagInput) (t : Nat) :
    Prop :=
  ∃ a < t, (inp a).op = op ∧ ∀ k, a ≤ k → k < t → (inp k).rstTm = true ∧ fin (inp k) = true

theorem run_go (inp : Nat → ToolMagInput) (t : Nat) :
    (run s.reset inp t).go = true ↔ Underway 0b0110 ToolMagInput.aheFin inp t := by
  have hstep (t : Nat) : (run s.reset inp (t + 1)).go =
      (((inp t).rstTm && (inp t).aheFin) &&
        (decide ((inp t).op = 0b0110) || (run s.reset inp t).go)) := step_go _ _
  rw [latch_iff (q := fun t => (run s.reset inp t).go) rfl hstep]
  simp only [decide_eq_true_iff, Bool.and_eq_true, Underway]

theorem run_back (inp : Nat → ToolMagInput) (t : Nat) :
    (run s.reset inp t).back = true ↔ Underway 0b0111 ToolMagInput.backFin inp t := by
  have hstep (t : Nat) : (run s.reset inp (t + 1)).back =
      (((inp t).rstTm && (inp t).backFin) &&
        (decide ((inp t).op = 0b0111) || (run s.reset inp t).back)) := step_back _ _
  rw [latch_iff (q := fun t => (run s.reset inp t).back) rfl hstep]
  simp only [decide_eq_true_iff, Bool.and_eq_true, Underway]

/-- Forward and backward are driven together exactly while both are under way. -/
theorem go_back_iff (s : ToolMagCtrl) (inp : Nat → ToolMagInput) (t : Nat) :
    ((run s.reset inp t).go = true ∧ (run s.reset inp t).back = true) ↔
      Underway 0b0110 ToolMagInput.aheFin inp t ∧ Underway 0b0111 ToolMagInput.backFin inp t :=
  and_congr (run_go s inp t) (run_back s inp t)

def powerUp : ToolMagCtrl :=
  ⟨0, 0, 0, false, 0, 0, 0, false, false, false, false, false, false, false⟩

/-- `MAG_GO` and `MAG_BACK` one after the other, with neither end switch reached. -/
theorem go_back_together :
    ¬ ∀ t, ¬ ((run powerUp.reset
        (fun t => ⟨true, if t = 0 then 0x6 else 0x7, true, true, true, false⟩) t).go = true ∧
      (run powerUp.reset
        (fun t => ⟨true, if t = 0 then 0x6 else 0x7, true, true, true, false⟩) t).back = true) := by
  intro h
  exact h 2 (by decide)

end ToolMagCtrl

end CncCard
