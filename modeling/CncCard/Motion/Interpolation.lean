import CncCard.Clocked.Accumulator

/-!
The `interpolation` module: one clock edge updates its twelve registers at once.
The window counter restarts every `clkDelay` cycles and clears the accumulator,
which gives up one modulus `clocks` for each pulse on `q`.

The registers `delta`, `deltaFlag`, `plusNum`, `plusNumT`, `plusTotal`, `qT` and
`qTt` only watch the pulses; no output depends on them.
-/

namespace CncCard
open Clocked

def clkDelay : Nat := 249999

def clocks : Nat := 250000

structure Interpolation where
  qT : Bool
  qTt : Bool
  clkNum : Nat
  clkFlag : Bool
  deltaFlag : Bool
  plusNum : Nat
  plusNumT : Nat
  delta : Nat
  dataReg : Nat
  plusTotal : Nat
  sum : Nat
  q : Bool

namespace Interpolation

/-- Every register at zero: the power-up state, and what `valid = 0` leaves. -/
def cleared : Interpolation :=
  ⟨false, false, 0, false, false, 0, 0, 0, 0, 0, 0, false⟩

def plusPos (s : Interpolation) : Bool := !s.qTt && s.qT

end Interpolation

def interpolation (s : Interpolation) (valid : Bool) (data : BitVec 17) : Interpolation where
  dataReg := if valid then data.toNat else 0
  delta := if valid then (s.dataReg + 2 ^ 32 - s.plusNumT) % 2 ^ 32 else 0
  deltaFlag :=
    if !valid then false
    else if s.deltaFlag && s.clkFlag then false
    else if s.delta ≠ 0 && s.clkFlag then true
    else s.deltaFlag
  clkFlag := valid && s.clkNum == clkDelay - 1
  sum :=
    if !valid then 0
    else if s.clkFlag then 0
    else if clocks ≤ s.sum then s.sum - clocks
    else (s.sum + s.dataReg) % 2 ^ 32
  q :=
    if !valid then false
    else if s.clkFlag then false
    else if clocks / 2 ≤ s.sum ∧ s.sum < clocks then true
    else if clocks ≤ s.sum then false
    else s.q
  clkNum :=
    if !valid then 0
    else if s.clkNum = clkDelay - 1 then 0
    else (s.clkNum + 1) % 2 ^ 32
  plusNum :=
    if !valid then 0
    else if s.clkFlag then 0
    else if s.plusPos then (s.plusNum + 1) % 2 ^ 32
    else s.plusNum
  plusNumT := if valid then s.plusNum else 0
  plusTotal :=
    if !valid then 0
    else if s.plusPos then (s.plusTotal + 1) % 2 ^ 32
    else s.plusTotal
  qT := if !valid then false else s.q
  qTt := if !valid then false else s.qT

/-- A cycle with `valid = 0` clears the module whatever state it was in. -/
theorem interpolation_invalid (s : Interpolation) (data : BitVec 17) :
    interpolation s false data = Interpolation.cleared := by
  simp [interpolation, Interpolation.cleared]

namespace Interpolation

/-- The accumulator part of the state. -/
def cell (s : Interpolation) : Accumulator.Cell := ⟨s.sum, s.q⟩

/-- Outside the clearing cycle the module is the abstract accumulator. -/
theorem interpolation_cell (s : Interpolation) (data : BitVec 17)
    (hflag : s.clkFlag = false) (hsum : s.sum + s.dataReg < 2 ^ 32) :
    (interpolation s true data).cell =
      Accumulator.step clocks (clocks / 2) s.cell s.dataReg := by
  simp only [cell, interpolation, Accumulator.step, hflag, Bool.not_true,
    Bool.false_eq_true, if_false, Nat.mod_eq_of_lt hsum]
  rfl

theorem interpolation_cell_clear (s : Interpolation) (data : BitVec 17)
    (hflag : s.clkFlag = true) : (interpolation s true data).cell = ⟨0, false⟩ := by
  simp [cell, interpolation, hflag]

section Running

variable (data : Nat → BitVec 17)

def running : Nat → Interpolation :=
  trace (fun s d => interpolation s true d) cleared data

theorem running_succ (t : Nat) :
    running data (t + 1) = interpolation (running data t) true (data t) := rfl

theorem running_clkNum (t : Nat) : (running data t).clkNum = t % 249999 := by
  induction t with
  | zero => rfl
  | succ t ih =>
      simp only [running_succ, interpolation, ih, clkDelay, Bool.not_true,
        Bool.false_eq_true, if_false]
      split <;> omega

/-- The clearing cycles are the positive multiples of the window length. -/
theorem running_clkFlag (t : Nat) :
    (running data t).clkFlag = decide (0 < t ∧ t % 249999 = 0) := by
  cases t with
  | zero => rfl
  | succ t =>
      rw [running_succ]
      simp only [interpolation, running_clkNum, clkDelay, Bool.true_and]
      rw [Bool.beq_eq_decide_eq, decide_eq_decide]
      omega

variable {data}

theorem running_dataReg_le (hdata : ∀ t, (data t).toNat ≤ 127) (t : Nat) :
    (running data t).dataReg ≤ 127 := by
  cases t with
  | zero => exact Nat.zero_le _
  | succ t => exact hdata t

section Accumulates

variable {u : Nat → Nat} (hu : ∀ k, u k ≤ 127) {c n : Nat}
  (hdata : ∀ k < n, (running data (c + k)).dataReg = u k)
  (hclear : (running data c).cell = ⟨0, false⟩)
  (hflag : ∀ k < n, (running data (c + k)).clkFlag = false)
include hu hdata hclear hflag

/-- From a cycle with a cleared accumulator up to the next clearing cycle the
module runs the abstract accumulator on the values in `dataReg`. -/
theorem running_cell (i : Nat) (hi : i ≤ n) :
    (running data (c + i)).cell = Accumulator.run clocks (clocks / 2) u i := by
  induction i with
  | zero => exact hclear
  | succ i ih =>
      have hcell := ih (by omega)
      have hlt : (running data (c + i)).sum < clocks + clocks / 2 := by
        have h : (running data (c + i)).sum = (running data (c + i)).cell.sum := rfl
        rw [h, hcell]
        apply Accumulator.sum_lt (by decide)
        · intro k; have := hu k; simp only [clocks]; omega
        · intro k; have := hu k; simp only [clocks]; omega
      have hd := hu i
      rw [← hdata i (by omega)] at hd
      simp only [clocks] at hlt
      rw [← Nat.add_assoc, running_succ, interpolation_cell _ _ (hflag i (by omega)) (by omega),
        hcell, hdata i (by omega)]
      rfl

theorem running_edges (i : Nat) (hi : i ≤ n) :
    edges (fun t => (running data t).q) (fun _ => true) (c + 1) (c + 1 + i) =
      Accumulator.rises clocks (clocks / 2) u i := by
  have hout (k : Nat) (hk : k ≤ n) : (running data (k + c)).q =
      (Accumulator.run clocks (clocks / 2) u k).out := by
    rw [← running_cell hu hdata hclear hflag k hk, Nat.add_comm]; rfl
  have hshift := edges_shift (fun t => (running data t).q) (fun _ => true) c
    (a := 1) (b := i + 1) (by omega)
  rw [show c + 1 = 1 + c by omega, show 1 + c + i = i + 1 + c by omega, ← hshift]
  apply edges_congr
  intro t ht hti
  obtain ⟨k, rfl⟩ : ∃ k, t = k + 1 := ⟨t - 1, by omega⟩
  simp only [rose, hout k (by omega), hout (k + 1) (by omega)]

end Accumulates

theorem running_clear (data : Nat → BitVec 17) {j : Nat} (hj : 0 < j) :
    (running data (249999 * j + 1)).cell = ⟨0, false⟩ := by
  rw [running_succ, interpolation_cell_clear]
  rw [running_clkFlag]
  simp [hj]

theorem running_flag_low (data : Nat → BitVec 17) (j : Nat) {k : Nat} (hk : k < 249998) :
    (running data (249999 * j + 1 + k)).clkFlag = false := by
  rw [running_clkFlag]
  simp only [decide_eq_false_iff_not]
  omega

end Running

end Interpolation

end CncCard
