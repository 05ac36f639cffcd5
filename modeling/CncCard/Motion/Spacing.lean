import CncCard.Clocked.Rate
import CncCard.Motion.Path

/-!
The shape of the step pulses that the drives get from a program: how long a pulse and the
gap before it are at least, in every run of the motion path, whatever is queued, enabled and
stopped meanwhile. Only the end of a window and the loss of `valid` make a pulse shorter.
-/

namespace CncCard
open Clocked

namespace MotionPath

/-- The interpolator of an axis in a cycle of a run. -/
def interp (r : Nat → MotionPath) (ax : Axis) (t : Nat) : Interpolation :=
  ((r t).dda.lane ax).interp

/-- The cycle clears the accumulator, and with it a pulse that is still high. -/
def cuts (r : Nat → MotionPath) (inp : Nat → MotionInput) (ax : Axis) (t : Nat) : Bool :=
  !(inp t).valid || (interp r ax t).clkFlag

/-- A pulse comes after a gap of 985 cycles and lasts 984 cycles, unless it is cut. -/
structure Shaped (r : Nat → MotionPath) (inp : Nat → MotionInput) (ax : Axis) : Prop where
  gap : ∀ t, (interp r ax t).q = false → (interp r ax (t + 1)).q = true →
    Held (fun k => !(interp r ax k).q) 985 (t + 1)
  width : ∀ t, (interp r ax t).q = true → (interp r ax (t + 1)).q = false →
    cuts r inp ax t = false → Held (fun k => (interp r ax k).q) 984 (t + 1)

variable (fifo33 : RegFifo Command 2048) (fifo31 : RegFifo (BitVec 64) 2048)
  (inp : Nat → MotionInput) (ax : Axis)

theorem interp_succ (t : Nat) : interp (run fifo33 fifo31 inp) ax (t + 1) =
    interpolation (interp (run fifo33 fifo31 inp) ax t) (inp t).valid
      ((run fifo33 fifo31 inp t).dda.lane ax).data := by
  simp only [interp, run, trace_succ, clock, dda_lane, Lane.clock]

theorem lane_data_le (t : Nat) : ((run fifo33 fifo31 inp t).dda.lane ax).data.toNat ≤ 127 := by
  cases t with
  | zero => simp [run, start, Lane.cleared]
  | succ t =>
      simp only [run, trace_succ, clock, dda_lane, Lane.clock]
      split
      · have := ((trace clock (start fifo33 fifo31) inp t).ddaDatain.steps ax).isLt
        rw [BitVec.toNat_setWidth_of_le (by omega)]
        omega
      · simp

theorem interp_dataReg_le (t : Nat) : (interp (run fifo33 fifo31 inp) ax t).dataReg ≤ 127 := by
  cases t with
  | zero => simp [interp, run, start, Lane.cleared, Interpolation.cleared]
  | succ t =>
      rw [interp_succ]
      simp only [interpolation]
      split
      · exact lane_data_le fifo33 fifo31 inp ax t
      · exact Nat.zero_le _

/-- One addition past the modulus is the most that the register `sum` holds. -/
theorem interp_sum_lt (t : Nat) :
    (interp (run fifo33 fifo31 inp) ax t).sum < clocks + 127 := by
  induction t with
  | zero => simp [interp, run, start, Lane.cleared, Interpolation.cleared]
  | succ t ih =>
      have hdata := interp_dataReg_le fifo33 fifo31 inp ax t
      rw [interp_succ]
      simp only [interpolation]
      split
      · exact Nat.succ_pos _
      split
      · exact Nat.succ_pos _
      split
      · omega
      · exact Nat.lt_of_le_of_lt (Nat.mod_le _ _) (by omega)

/-- In every run the module is the accumulator, cleared in some cycles. -/
theorem interp_cell (t : Nat) : (interp (run fifo33 fifo31 inp) ax (t + 1)).cell =
    if cuts (run fifo33 fifo31 inp) inp ax t then ⟨0, false⟩
    else Accumulator.step clocks (clocks / 2) (interp (run fifo33 fifo31 inp) ax t).cell
      (interp (run fifo33 fifo31 inp) ax t).dataReg := by
  have hsum := interp_sum_lt fifo33 fifo31 inp ax t
  have hdata := interp_dataReg_le fifo33 fifo31 inp ax t
  rw [interp_succ, cuts]
  cases hvalid : (inp t).valid with
  | false =>
      rw [interpolation_invalid]
      rfl
  | true =>
      rw [Bool.not_true, Bool.false_or]
      cases hflag : (interp (run fifo33 fifo31 inp) ax t).clkFlag with
      | true => exact Interpolation.interpolation_cell_clear _ _ hflag
      | false =>
          rw [if_neg Bool.false_ne_true]
          apply Interpolation.interpolation_cell _ _ hflag
          simp only [clocks] at hsum
          omega

theorem shaped (fifo33 : RegFifo Command 2048) (fifo31 : RegFifo (BitVec 64) 2048)
    (inp : Nat → MotionInput) (ax : Axis) : Shaped (run fifo33 fifo31 inp) inp ax where
  gap _ hlow hhigh :=
    Accumulator.low_before_rise (C := clocks) (H := clocks / 2) (B := 127)
      (fun k => (interp (run fifo33 fifo31 inp) ax k).cell) (by decide) (by decide)
      (interp_dataReg_le fifo33 fifo31 inp ax) (by cases ax <;> rfl)
      (interp_cell fifo33 fifo31 inp ax) 984 (by decide) hlow hhigh
  width _ hhigh hlow hkept :=
    Accumulator.high_before_fall (C := clocks) (H := clocks / 2) (B := 127)
      (fun k => (interp (run fifo33 fifo31 inp) ax k).cell) (by decide) (by decide)
      (interp_dataReg_le fifo33 fifo31 inp ax) (by cases ax <;> rfl)
      (interp_cell fifo33 fifo31 inp ax) 983 (by decide) hhigh hlow hkept

end MotionPath

end CncCard
