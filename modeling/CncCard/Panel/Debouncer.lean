import CncCard.Clocked.Hold
import CncCard.Clocked.Trace
import Mathlib.Data.BitVec

/-!
The debouncer that `check`, `jog`, `key_hold` and `zero_sel` have in front of each switch:
a counter of seven bits that goes round as long as the switch is closed and raises the
flag when it does so for the first time.
-/

namespace CncCard
open Clocked

structure Debouncer where
  count : BitVec 7
  flag : Bool

namespace Debouncer

def powerUp : Debouncer := ⟨0, false⟩

def clock (s : Debouncer) (level : Bool) : Debouncer :=
  if level then
    if s.count = 0x7d then ⟨0, true⟩ else ⟨s.count + 1, s.flag⟩
  else ⟨0, false⟩

def run (level : Nat → Bool) : Nat → Debouncer := trace clock powerUp level

variable (level : Nat → Bool)

theorem run_succ (t : Nat) : run level (t + 1) = (run level t).clock (level t) := rfl

/-- The counter keeps the length of the stay modulo its period, and the flag whether the
stay has been as long as a period. -/
theorem run_eq (t : Nat) :
    run level t = ⟨BitVec.ofNat 7 (streak level t % 126), decide (126 ≤ streak level t)⟩ := by
  induction t with
  | zero => rfl
  | succ t ih =>
      rw [run_succ, ih, clock, streak]
      cases level t with
      | false => rfl
      | true =>
          have hround : BitVec.ofNat 7 (streak level t % 126) = 0x7d ↔
              streak level t % 126 = 125 := by
            rw [← BitVec.toNat_inj, BitVec.toNat_ofNat]
            simp only [BitVec.reduceToNat]
            omega
          simp only [if_true, hround]
          split
          · next hfull =>
              have hzero : (streak level t + 1) % 126 = 0 := by omega
              have hlong : 126 ≤ streak level t + 1 := by omega
              simp [hzero, hlong]
          · next hpart =>
              have hnext : (streak level t + 1) % 126 = streak level t % 126 + 1 := by omega
              have hlong : 126 ≤ streak level t + 1 ↔ 126 ≤ streak level t := by omega
              rw [hnext, BitVec.ofNat_add]
              simp only [hlong]
              rfl

theorem run_flag (t : Nat) : (run level t).flag = true ↔ Held level 126 t := by
  rw [run_eq, held_iff]
  exact decide_eq_true_iff

theorem clock_flag_open (s : Debouncer) : (s.clock false).flag = false := rfl

theorem clock_flag_stays {s : Debouncer} (h : s.flag = true) : (s.clock true).flag = true := by
  rw [clock, if_pos rfl]
  split
  · rfl
  · exact h

/-- A switch that stays as its flag is leaves the flag alone. -/
theorem clock_flag_self (s : Debouncer) : (s.clock s.flag).flag = s.flag := by
  cases h : s.flag with
  | false => exact s.clock_flag_open
  | true => exact clock_flag_stays h

end Debouncer

end CncCard
