import CncCard.Clocked.Rate
import CncCard.Motion.Exactness
import CncCard.Motion.WindowCount
import Mathlib.Algebra.Group.Action.Defs

/-!
How closely the pulses follow the command words while a window runs: at every cycle each
axis is within a step of the rate that its word commands, whatever words take each other's
place, so under one word the axes move along the straight line that it commands.
-/

namespace CncCard
open Clocked

namespace MotionPath

/-- The word whose step counts the accumulators add in a cycle; nothing is added before the
first one has come through the registers of `dda` and `interpolation`. -/
def fed (r : Nat → MotionPath) (t : Nat) : Command := if t < 2 then 0 else (r (t - 2)).fifo33.q

/-- The pulses of the first `i` cycles of window `j`. -/
def windowPulses (r : Nat → MotionPath) (inp : Nat → MotionInput) (ax : Axis) (j i : Nat) : Nat :=
  edges (fun t => (r t).puls (inp t) ax) (fun _ => true) (249999 * j + 2) (249999 * j + 2 + i)

/-- The step counts that these cycles add, for 250000 each of which there is a pulse. -/
def windowRate (r : Nat → MotionPath) (ax : Axis) (j i : Nat) : Nat :=
  ∑ k ∈ Finset.range i, (fed r (249999 * j + 1 + k)).count ax

/-- The pulses of a window follow what its cycles add, and while one word is in place two
axes keep the proportion that it commands. -/
structure Follows (r : Nat → MotionPath) (inp : Nat → MotionInput) : Prop where
  early : ∀ ax j i, i ≤ 249998 →
    250000 * windowPulses r inp ax j i ≤ windowRate r ax j i + 125000
  late : ∀ ax j i, i ≤ 249998 →
    windowRate r ax j i ≤
      250000 * windowPulses r inp ax j i + 125000 + 127 * (windowPulses r inp ax j i + 1)
  straight : ∀ ax ax' j i w, i ≤ 249998 → (∀ k < i, fed r (249999 * j + 1 + k) = w) →
    250000 * (w.count ax' * windowPulses r inp ax j i) ≤
      250000 * (w.count ax * windowPulses r inp ax' j i) +
        125000 * w.count ax' + 141256 * w.count ax

variable {fifo33 : RegFifo Command 2048} {fifo31 : RegFifo (BitVec 64) 2048}
  {inp : Nat → MotionInput}

section Enabled

variable (hvalid : ∀ t, (inp t).valid = true) (h31 : fifo31.words ≠ [])
include hvalid h31

theorem dataReg_fed (ax : Axis) (t : Nat) :
    ((run fifo33 fifo31 inp t).dda.lane ax).interp.dataReg =
      (fed (run fifo33 fifo31 inp) t).count ax := by
  cases Nat.lt_or_ge t 2 with
  | inl hlt =>
      have hstart : ((run fifo33 fifo31 inp t).dda.lane ax).interp.dataReg = 0 := by
        obtain rfl | rfl : t = 0 ∨ t = 1 := by omega
        · simp [run, start, Lane.cleared, Interpolation.cleared]
        · rw [run_succ]
          simp [clock, dda_lane, Lane.clock, interpolation, run, start, Lane.cleared]
      rw [hstart, fed, if_pos hlt, count_zero]
  | inr hge =>
      obtain ⟨k, rfl⟩ := Nat.exists_eq_add_of_le' hge
      rw [dataReg_run hvalid h31, fed, if_neg (Nat.not_lt_of_le hge), Nat.add_sub_cancel]

theorem windowPulses_eq (ax : Axis) (j : Nat) {i : Nat} (hi : i ≤ 249998) :
    windowPulses (run fifo33 fifo31 inp) inp ax j i =
      Accumulator.rises clocks (clocks / 2)
        (fun k => (fed (run fifo33 fifo31 inp) (249999 * j + 1 + k)).count ax) i := by
  have h := Interpolation.running_edges (c := 249999 * j + 1) (n := 249998)
    (u := fun k => (fed (run fifo33 fifo31 inp) (249999 * j + 1 + k)).count ax)
    (fun k => Command.count_le _ ax)
    (fun k _ => by rw [← interp_run hvalid, dataReg_fed hvalid h31 ax])
    (Interpolation.running_start _ j) (fun k hk => Interpolation.running_flag_low _ j hk) i hi
  simp only [← interp_run hvalid] at h
  rw [← h]
  simp only [windowPulses, puls_run hvalid]

variable (fifo33) in
theorem windowPulses_early (ax : Axis) (j : Nat) {i : Nat} (hi : i ≤ 249998) :
    250000 * windowPulses (run fifo33 fifo31 inp) inp ax j i ≤
      windowRate (run fifo33 fifo31 inp) ax j i + 125000 := by
  rw [windowPulses_eq hvalid h31 ax j hi]
  exact Accumulator.rises_le (C := clocks) (H := clocks / 2) (B := 127) (by decide) (by decide)
    (by decide) (fun k => Command.count_le _ ax) i

variable (fifo33) in
theorem windowPulses_late (ax : Axis) (j : Nat) {i : Nat} (hi : i ≤ 249998) :
    windowRate (run fifo33 fifo31 inp) ax j i ≤
      250000 * windowPulses (run fifo33 fifo31 inp) inp ax j i + 125000 +
        127 * (windowPulses (run fifo33 fifo31 inp) inp ax j i + 1) := by
  rw [windowPulses_eq hvalid h31 ax j hi]
  exact Accumulator.le_rises (C := clocks) (H := clocks / 2) (B := 127) (by decide) (by decide)
    (by decide) (fun k => Command.count_le _ ax) i

omit hvalid h31 in
theorem windowRate_le (r : Nat → MotionPath) (ax : Axis) (j i : Nat) :
    windowRate r ax j i ≤ 127 * i := by
  calc windowRate r ax j i
      ≤ (Finset.range i).card • 127 :=
        Finset.sum_le_card_nsmul _ _ 127 fun k _ => Command.count_le _ ax
    _ = 127 * i := by rw [Finset.card_range, smul_eq_mul, Nat.mul_comm]

omit hvalid h31 in
theorem windowRate_const {r : Nat → MotionPath} (ax : Axis) {j i : Nat} {w : Command}
    (hword : ∀ k < i, fed r (249999 * j + 1 + k) = w) : windowRate r ax j i = w.count ax * i := by
  rw [windowRate, Finset.sum_congr rfl fun k hk => by rw [hword k (Finset.mem_range.mp hk)],
    Finset.sum_const, Finset.card_range, smul_eq_mul, Nat.mul_comm]

variable (fifo33) in
/-- A window gives at most 127 pulses. -/
theorem windowPulses_le (ax : Axis) (j : Nat) {i : Nat} (hi : i ≤ 249998) :
    windowPulses (run fifo33 fifo31 inp) inp ax j i ≤ 127 := by
  have hearly := windowPulses_early fifo33 hvalid h31 ax j hi
  have hrate := windowRate_le (run fifo33 fifo31 inp) ax j i
  omega

theorem windowPulses_straight (ax ax' : Axis) (j : Nat) {i : Nat} {w : Command}
    (hi : i ≤ 249998) (hword : ∀ k < i, fed (run fifo33 fifo31 inp) (249999 * j + 1 + k) = w) :
    250000 * (w.count ax' * windowPulses (run fifo33 fifo31 inp) inp ax j i) ≤
      250000 * (w.count ax * windowPulses (run fifo33 fifo31 inp) inp ax' j i) +
        125000 * w.count ax' + 141256 * w.count ax := by
  have hearly := windowPulses_early fifo33 hvalid h31 ax j hi
  have hlate := windowPulses_late fifo33 hvalid h31 ax' j hi
  have hle := windowPulses_le fifo33 hvalid h31 ax' j hi
  rw [windowRate_const ax hword] at hearly
  rw [windowRate_const ax' hword] at hlate
  generalize windowPulses (run fifo33 fifo31 inp) inp ax j i = p at hearly ⊢
  generalize windowPulses (run fifo33 fifo31 inp) inp ax' j i = p' at hlate hle ⊢
  -- both pulse counts are compared with the product of the two step counts and the time
  have hlate' : w.count ax' * i ≤ 250000 * p' + 141256 := by omega
  calc 250000 * (w.count ax' * p)
      = w.count ax' * (250000 * p) := by ring
    _ ≤ w.count ax' * (w.count ax * i + 125000) := Nat.mul_le_mul_left _ hearly
    _ = w.count ax * (w.count ax' * i) + 125000 * w.count ax' := by ring
    _ ≤ w.count ax * (250000 * p' + 141256) + 125000 * w.count ax' :=
        Nat.add_le_add_right (Nat.mul_le_mul_left _ hlate') _
    _ = 250000 * (w.count ax * p') + 125000 * w.count ax' + 141256 * w.count ax := by ring

end Enabled

/-- While the path is enabled every axis stays within a step of the commanded motion
throughout a window, and under one word the axes move along a straight line. -/
theorem follows_of_valid (fifo33 : RegFifo Command 2048) (fifo31 : RegFifo (BitVec 64) 2048)
    (inp : Nat → MotionInput) (hvalid : ∀ t, (inp t).valid = true) (h31 : fifo31.words ≠ []) :
    Follows (run fifo33 fifo31 inp) inp where
  early ax j _ hi := windowPulses_early fifo33 hvalid h31 ax j hi
  late ax j _ hi := windowPulses_late fifo33 hvalid h31 ax j hi
  straight ax ax' j _ _ hi hword := windowPulses_straight hvalid h31 ax ax' j hi hword

theorem follows_enabled : Follows (run ⟨⟨[1, 0], by decide⟩, 0⟩ ⟨⟨[0], by decide⟩, 0⟩
    fun _ => .enabled) fun _ => .enabled :=
  follows_of_valid _ _ _ (fun _ => rfl) (by decide)

end MotionPath

end CncCard
