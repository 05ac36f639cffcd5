import CncCard.Clocked.Level
import CncCard.Clocked.Runs
import CncCard.Tool.MagCtrl

/-!
The pockets that the rotation counts. `time_delay_two` keeps what it has when the sensor is
released, so a pocket is counted for every 126 low samples, from whichever pulses they come.
-/

namespace CncCard
open Clocked
namespace ToolMagCtrl

variable {inp : Nat → ToolMagInput}

/-- A clear in the cycle before the first sample, and neither a clear nor a reset behind. -/
structure Cleared (inp : Nat → ToolMagInput) : Prop where
  clear : (inp 0).clrCounts = true
  counting : ∀ t, (inp (t + 1)).clrCounts = false
  enabled : ∀ t, (inp t).rstTm = true

def sensorLow (inp : Nat → ToolMagInput) (t : Nat) : Bool := !(inp (t + 1)).rotCount

/-- One count for each pulse that has been low for 126 samples. -/
def CountsPulses (s : ToolMagCtrl) (inp : Nat → ToolMagInput) : Prop :=
  ∀ t, (run s inp (t + 1)).rotNumber.toNat = longRuns (sensorLow inp) 126 t

/-- Each pulse finds what the earlier ones have left in the counter. From an empty counter it
ends before it is counted again, and from any other it ends before it is counted. -/
def Separated (low : Nat → Bool) : Prop :=
  ∀ a n, RunFrom low a n →
    (during low 0 a % 126 = 0 ∧ n < 252) ∨
      (during low 0 a % 126 ≠ 0 ∧ during low 0 a % 126 + n < 126)

theorem run_counters (s : ToolMagCtrl) (h : Cleared inp) (t : Nat) :
    (run s inp (t + 1)).rotNumber = BitVec.ofNat 20 (during (sensorLow inp) 0 t / 126) ∧
      (run s inp (t + 1)).timeDelayTwo = BitVec.ofNat 7 (during (sensorLow inp) 0 t % 126) := by
  induction t with
  | zero =>
      rw [during_self, run_succ, toolMagCtrl, h.enabled, h.clear]
      exact ⟨rfl, rfl⟩
  | succ t ih =>
      obtain ⟨hrot, hdelay⟩ := ih
      have hlow : sensorLow inp t = !(inp (t + 1)).rotCount := rfl
      rw [run_succ, toolMagCtrl, h.enabled, counts, during_succ _ (Nat.zero_le t), hrot, hdelay,
        hlow]
      simp only [h.counting]
      cases (inp (t + 1)).rotCount with
      | true => exact ⟨rfl, rfl⟩
      | false =>
          generalize during (sensorLow inp) 0 t = n
          have hfull : BitVec.ofNat 7 (n % 126) = 0x7d ↔ n % 126 = 125 := by
            rw [← BitVec.toNat_inj, BitVec.toNat_ofNat, Nat.mod_eq_of_lt (by omega)]
            exact Iff.rfl
          by_cases hlast : n % 126 = 125
          · have hdiv : (n + 1) / 126 = n / 126 + 1 := by omega
            have hmod : (n + 1) % 126 = 0 := by omega
            simp [hfull.mpr hlast, hdiv, hmod, BitVec.ofNat_add]
          · have hdiv : (n + 1) / 126 = n / 126 := by omega
            have hmod : (n + 1) % 126 = n % 126 + 1 := by omega
            have hmore : ¬ BitVec.ofNat 7 (n % 126) = 125#7 := mt hfull.mp hlast
            simp [hmore, hdiv, hmod, BitVec.ofNat_add]

/-- The quotient takes one step at a time, so it is the count of the pulses, and not only
modulo the width of the register. -/
theorem countsPulses_iff (s : ToolMagCtrl) (h : Cleared inp) :
    CountsPulses s inp ↔
      (∀ t, during (sensorLow inp) 0 t / 126 = longRuns (sensorLow inp) 126 t) ∧
        ∀ t, longRuns (sensorLow inp) 126 t < 2 ^ 20 := by
  have hcount (t : Nat) : (run s inp (t + 1)).rotNumber.toNat =
      during (sensorLow inp) 0 t / 126 % 2 ^ 20 := by
    rw [(run_counters s h t).1, BitVec.toNat_ofNat]
  constructor
  · intro hcounts
    have hlt (t : Nat) : longRuns (sensorLow inp) 126 t < 2 ^ 20 := by
      rw [← hcounts t, hcount]
      exact Nat.mod_lt _ (by decide)
    refine ⟨fun t => ?_, hlt⟩
    induction t with
    | zero => rw [during_self, longRuns_zero (by decide)]
    | succ t ih =>
        have hnext := hcounts (t + 1)
        have hbit := Bool.toNat_le (sensorLow inp t)
        have hroom := hlt (t + 1)
        rw [hcount, during_succ _ (Nat.zero_le t)] at hnext
        rw [during_succ _ (Nat.zero_le t)]
        have hmore := longRuns_succ (x := sensorLow inp) 126 t
        split at hmore <;> omega
  · rintro ⟨hdiv, hlt⟩ t
    rw [hcount, hdiv, Nat.mod_eq_of_lt (hlt t)]

section Pulses

variable {low : Nat → Bool}

theorem run_during {a n : Nat} (h : RunFrom low a n) :
    during low 0 (a + n) = during low 0 a + n := by
  induction n with
  | zero => rfl
  | succ n ih =>
      rw [← Nat.add_assoc, during_succ _ (Nat.zero_le _), ih (h.mono (Nat.le_succ n)),
        h.high (a + n) (by omega) (by omega)]
      rfl

/-- The quotient follows the pulses as long as no pulse goes past the point at which the one
is counted and the other is not. -/
theorem quotient_iff :
    (∀ t, during low 0 t / 126 = longRuns low 126 t) ↔ Separated low := by
  constructor
  · intro hdiv a n hrun
    have hstart := hdiv a
    have hlater (m : Nat) (hm : m ≤ n) :
        (during low 0 a + m) / 126 = longRuns low 126 a + if 126 ≤ m then 1 else 0 := by
      rw [← run_during (hrun.mono hm), hdiv, (hrun.mono hm).longRuns_add (by decide)]
    by_cases hrest : during low 0 a % 126 = 0
    · refine .inl ⟨hrest, Nat.lt_of_not_le fun hlong => ?_⟩
      have htwice := hlater 252 hlong
      rw [if_pos (by decide)] at htwice
      omega
    · refine .inr ⟨hrest, Nat.lt_of_not_le fun hlong => ?_⟩
      have hearly := hlater (126 - during low 0 a % 126) (by omega)
      rw [if_neg (by omega)] at hearly
      omega
  · intro hsep t
    induction t using Nat.strong_induction_on with
    | _ t ih =>
        obtain ⟨a, hat, hrun⟩ := exists_runFrom low t
        cases hstreak : streak low t with
        | zero =>
            cases t with
            | zero => rw [during_self, longRuns_zero (by decide)]
            | succ t =>
                cases hlow : low t with
                | true => rw [streak_succ_high hlow] at hstreak; omega
                | false =>
                    rw [longRuns_succ, hstreak, during_succ _ (Nat.zero_le t), hlow,
                      ← ih t (Nat.lt_succ_self t)]
                    rfl
        | succ n =>
            have hstart := ih a (by omega)
            have hcases := hsep a _ hrun
            rw [← hat, run_during hrun, hrun.longRuns_add (by decide), ← hstart]
            split <;> omega

end Pulses

/-- The samples of `low`, behind a cycle of `clr_counts`. -/
def pulseInput (low : Nat → Bool) (t : Nat) : ToolMagInput where
  rstTm := true
  auxData := 0
  aheFin := true
  backFin := true
  rotCount := t == 0 || !low (t - 1)
  clrCounts := t == 0

theorem pulseInput_cleared (low : Nat → Bool) : Cleared (pulseInput low) :=
  ⟨rfl, fun _ => rfl, fun _ => rfl⟩

theorem sensorLow_pulseInput (low : Nat → Bool) : sensorLow (pulseInput low) = low := by
  funext t
  exact Bool.not_not _

/-- One pulse of `n` samples. -/
def pulse (n t : Nat) : Bool := decide (t < n)

theorem during_pulse (n t : Nat) : during (pulse n) 0 t = min t n := by
  induction t with
  | zero => rw [during_self, Nat.zero_min]
  | succ t ih =>
      rw [during_succ _ (Nat.zero_le t), ih, pulse]
      by_cases ht : t < n
      · rw [decide_eq_true ht, Bool.toNat_true]
        omega
      · rw [decide_eq_false ht, Bool.toNat_false]
        omega

theorem pulse_separated {n : Nat} (hn : n < 252) : Separated (pulse n) := by
  intro a m hrun
  cases m with
  | zero =>
      by_cases hrest : during (pulse n) 0 a % 126 = 0
      · exact .inl ⟨hrest, by decide⟩
      · exact .inr ⟨hrest, Nat.mod_lt _ (by decide)⟩
  | succ m =>
      have hlast : a + m < n := of_decide_eq_true (hrun.high (a + m) (by omega) (by omega))
      cases a with
      | zero => exact .inl ⟨by rw [during_self], by omega⟩
      | succ a =>
          have hbefore : ¬ a < n := of_decide_eq_false (hrun.begins a rfl)
          omega

/-- Pulses are counted one by one exactly when they are separated in this sense and fewer
than the register holds. -/
theorem countsPulses_iff_separated (s : ToolMagCtrl) (h : Cleared inp) :
    CountsPulses s inp ↔
      Separated (sensorLow inp) ∧ ∀ t, longRuns (sensorLow inp) 126 t < 2 ^ 20 := by
  rw [countsPulses_iff s h, quotient_iff]

/-- A pulse of 126 samples is counted once. -/
theorem one_pulse_counted : CountsPulses powerUp (pulseInput (pulse 126)) := by
  refine (countsPulses_iff_separated powerUp (pulseInput_cleared _)).mpr ?_
  rw [sensorLow_pulseInput]
  refine ⟨pulse_separated (by decide), fun t => ?_⟩
  rw [← quotient_iff.mpr (pulse_separated (by decide)) t, during_pulse]
  omega

/-- One pulse of 252 samples is counted twice. -/
theorem long_pulse_counted_twice : ¬ CountsPulses powerUp (pulseInput (pulse 252)) := by
  intro hcounts
  have hdiv := ((countsPulses_iff powerUp (pulseInput_cleared _)).mp hcounts).1
  rw [sensorLow_pulseInput] at hdiv
  have hrun : RunFrom (pulse 252) 0 252 :=
    ⟨fun k hk => by omega, fun k _ hk => decide_eq_true (by omega)⟩
  have hsep := quotient_iff.mp hdiv 0 252 hrun
  rw [during_self] at hsep
  omega

end ToolMagCtrl

end CncCard
