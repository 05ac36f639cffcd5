import CncCard.Clocked.Hold
import CncCard.Clocked.Last
import CncCard.Clocked.Level
import CncCard.Clocked.Trace
import Mathlib.Data.BitVec

/-!
The period measurement `fsm_hw` of the hand wheel. `t0` counts the cycles between two edges of
the filtered phases and stays at its limit, one cycle behind which the timeout flag is seen.
-/

namespace CncCard
open Clocked

/-- The codes of `curr_state_M`, the last of which has no name in the source. -/
inductive PeriodState where
  | m0 | m1 | m2 | unused
  deriving DecidableEq

structure FsmHwInput where
  aIn : Bool
  bIn : Bool
  full : Bool

structure FsmHw where
  a0 : Bool
  a1 : Bool
  b0 : Bool
  b1 : Bool
  dealSign : Bool
  dirOut : Bool
  currStateM : PeriodState
  t0 : BitVec 22
  sTimer : Bool
  data : BitVec 22
  wrreq : Bool

namespace FsmHw

def reset : FsmHw := ⟨false, false, false, false, false, false, .m0, 0, false, 0, false⟩

def nextStateM (s : FsmHw) : PeriodState :=
  match s.currStateM with
  | .m0 => if !s.dealSign then .m0 else .m1
  | .m1 =>
      if s.sTimer = false ∧ s.dealSign = false then .m1
      else if s.sTimer = true ∧ s.dealSign = false then .m0
      else .m2
  | .m2 => if s.dealSign = false then .m1 else .m2
  | .unused => .m0

/-- The block of the registers that follow the next state. -/
def drive (s : FsmHw) (next : PeriodState) (full : Bool) : FsmHw :=
  match next with
  | .m1 =>
      { s with
        data := s.t0
        wrreq := false
        sTimer := decide (s.t0 ≥ 2500000)
        t0 := if s.t0 ≥ 2500000 then s.t0 else s.t0 + 1 }
  | .m2 =>
      { s with
        wrreq := full != true, data := if full != true then s.t0 else 0, t0 := 0,
        sTimer := false }
  | .m0 | .unused => { s with t0 := 0, sTimer := false, data := 0, wrreq := false }

/-- The direction is taken where `a1` rises, from the `b1` of the same clock edge. -/
def clock (s : FsmHw) (i : FsmHwInput) : FsmHw :=
  { s.drive s.nextStateM i.full with
    a0 := i.aIn
    a1 := s.a0
    b0 := i.bIn
    b1 := s.b0
    dealSign := (s.a1 ^^ s.a0) || (s.b1 ^^ s.b0)
    dirOut := if !s.a1 && s.a0 then s.b0 else s.dirOut
    currStateM := s.nextStateM }

/-- The machine gives up the measurement. -/
def timeout (s : FsmHw) : Bool := s.currStateM == .m1 && s.sTimer && !s.dealSign

structure Inv (s : FsmHw) : Prop where
  bounded : s.t0.toNat ≤ 2500000
  used : s.currStateM ≠ .unused
  idle : s.currStateM = .m0 → s.t0 = 0
  written : s.currStateM = .m2 → s.sTimer = false

theorem inv_reset : Inv reset := ⟨by decide, by decide, fun _ => rfl, by decide⟩

theorem nextStateM_ne_unused (s : FsmHw) : s.nextStateM ≠ .unused := by
  unfold nextStateM
  cases s.currStateM <;> cases s.dealSign <;> cases s.sTimer <;> simp

theorem nextStateM_m2 {s : FsmHw} :
    s.nextStateM = .m2 ↔ s.dealSign = true ∧ (s.currStateM = .m1 ∨ s.currStateM = .m2) := by
  unfold nextStateM
  cases s.currStateM <;> cases s.dealSign <;> cases s.sTimer <;> simp

theorem limit_le_iff (t0 : BitVec 22) : t0 ≥ 2500000 ↔ 2500000 ≤ t0.toNat := BitVec.le_def

/-- The addition does not wrap, since it is made below the limit only. -/
theorem clock_m1 {s : FsmHw} (h : s.nextStateM = .m1) (i : FsmHwInput) :
    (s.clock i).t0.toNat = (if 2500000 ≤ s.t0.toNat then s.t0.toNat else s.t0.toNat + 1) ∧
      (s.clock i).sTimer = decide (2500000 ≤ s.t0.toNat) := by
  rw [clock, h, drive]
  simp only [limit_le_iff]
  split
  · simp
  · have hroom : s.t0.toNat + 1 < 2 ^ 22 := by omega
    rw [BitVec.toNat_add]
    simpa using hroom

theorem clock_t0 {s : FsmHw} (h : s.nextStateM ≠ .m1) (i : FsmHwInput) :
    (s.clock i).t0 = 0 ∧ (s.clock i).sTimer = false := by
  rw [clock]
  cases hnext : s.nextStateM with
  | m1 => exact absurd hnext h
  | m0 | m2 | unused => exact ⟨rfl, rfl⟩

theorem Inv.clock {s : FsmHw} (h : Inv s) (i : FsmHwInput) : Inv (s.clock i) where
  bounded := by
    by_cases hnext : s.nextStateM = .m1
    · have hbounded := h.bounded
      rw [(clock_m1 hnext i).1]
      split <;> omega
    · rw [(clock_t0 hnext i).1]
      decide
  used := s.nextStateM_ne_unused
  idle hstate := by
    have hnext : s.nextStateM = .m0 := hstate
    exact (clock_t0 (by rw [hnext]; decide) i).1
  written hstate := by
    have hnext : s.nextStateM = .m2 := hstate
    exact (clock_t0 (by rw [hnext]; decide) i).2

/-- A write is an edge that finds the machine measuring and the queue with room. -/
theorem clock_wrreq (s : FsmHw) (i : FsmHwInput) :
    (s.clock i).wrreq = (s.nextStateM == .m2 && !i.full) := by
  rw [clock]
  cases s.nextStateM <;> cases i.full <;> rfl

theorem clock_data {s : FsmHw} {i : FsmHwInput} (h : (s.clock i).wrreq = true) :
    (s.clock i).data = s.t0 := by
  rw [clock_wrreq, Bool.and_eq_true, beq_iff_eq, Bool.not_eq_true'] at h
  rw [clock, h.1, drive, h.2]
  rfl

/-- An edge starts the measurement, and only a timeout ends it. -/
theorem clock_idle {s : FsmHw} (h : s.currStateM ≠ .unused) (i : FsmHwInput) :
    ((s.clock i).currStateM != .m0) = (!s.timeout && (s.dealSign || s.currStateM != .m0)) := by
  change (s.nextStateM != .m0) = _
  unfold nextStateM timeout
  cases hstate : s.currStateM with
  | unused => exact absurd hstate h
  | m0 | m1 | m2 => cases s.dealSign <;> cases s.sTimer <;> rfl

section Run

variable (inp : Nat → FsmHwInput)

def run : Nat → FsmHw := trace clock reset inp

theorem run_succ (t : Nat) : run inp (t + 1) = (run inp t).clock (inp t) := rfl

theorem run_inv (t : Nat) : Inv (run inp t) :=
  trace_invariant inv_reset (fun _ i h => h.clock i) t

/-- An edge is seen three cycles behind the sample before it. -/
theorem run_dealSign (t : Nat) : (run inp (t + 3)).dealSign =
    (((inp t).aIn ^^ (inp (t + 1)).aIn) || ((inp t).bIn ^^ (inp (t + 1)).bIn)) := rfl

/-- There has been an edge with no timeout from then on. -/
def Underway (t : Nat) : Prop :=
  ∃ e < t, (run inp e).dealSign = true ∧ ∀ k, e ≤ k → k < t → (run inp k).timeout = false

theorem run_underway (t : Nat) : (run inp t).currStateM ≠ .m0 ↔ Underway inp t := by
  have hstep (t : Nat) : ((run inp (t + 1)).currStateM != .m0) =
      (!(run inp t).timeout && ((run inp t).dealSign || (run inp t).currStateM != .m0)) :=
    clock_idle (run_inv inp t).used (inp t)
  rw [← bne_iff_ne, latch_iff (q := fun t => (run inp t).currStateM != .m0) rfl hstep]
  simp only [Bool.not_eq_true', Underway]

end Run

end FsmHw

end CncCard
