import CncCard.Handwheel.PulsHw

/-!
The division in `F1`. The divisor is what the debounced switches have selected, which is zero
as long as none of them has been held; the queue is not asked whether one has. `F1` reads on
until a quotient is not zero, so it is left only for a word that the divisor goes into.
-/

namespace CncCard
open Clocked
namespace PulsHw

/-- The registers behind the reset. -/
def reset : PulsHw :=
  ⟨.f0, false, 0, 0, 0, false, 0, 0, false, .powerUp, .powerUp, .powerUp, false, false⟩

section Run

variable (inp : Nat → PulsInput)

def run : Nat → PulsHw := trace clock reset inp

theorem run_succ (t : Nat) : run inp (t + 1) = (run inp t).clock (inp t) := rfl

/-- The quotient is latched at the end of the cycle. -/
def Reads (t : Nat) : Prop := (run inp t).nextStateF (inp t).empty = .f1

/-- The divisor that the switches have selected, each of which has to be held for 126 samples.
It is one more cycle behind them. -/
def coefficient : Nat → Nat
  | 0 => 0
  | t + 1 =>
      if 126 ≤ streak (fun k => !(inp k).iX1) t then 2
      else if 126 ≤ streak (fun k => !(inp k).iX10) t then 12
      else if 126 ≤ streak (fun k => !(inp k).iX100) t then 32
      else 0

/-- No division by zero, and no stay in `F1` without an end. -/
structure Divides : Prop where
  nonzero : ∀ t, Reads inp t → (run inp t).c0 ≠ 0
  leaves : ∀ t, (run inp t).currStateF = .f1 → ∃ u, t < u ∧ (run inp u).currStateF ≠ .f1

/-- Whenever a word is read, a switch has been held, and as long as no quotient has come out,
a word that is large enough for it is shown in the end. -/
structure Supplied : Prop where
  selected : ∀ t, Reads inp t → coefficient inp t ≠ 0
  shown : ∀ t, Reads inp t → (run inp t).qIn = 0 →
    ∃ u, t ≤ u ∧ coefficient inp u ≤ (inp u).q.toNat

theorem debounced (level : Nat → Bool) (t : Nat) :
    (trace Debouncer.clock .powerUp level t).flag = decide (126 ≤ streak level t) :=
  congrArg Debouncer.flag (Debouncer.run_eq level t)

theorem run_flags (t : Nat) :
    (run inp t).x1.flag = decide (126 ≤ streak (fun k => !(inp k).iX1) t) ∧
      (run inp t).x10.flag = decide (126 ≤ streak (fun k => !(inp k).iX10) t) ∧
        (run inp t).x100.flag = decide (126 ≤ streak (fun k => !(inp k).iX100) t) := by
  have hx1 (s : PulsHw) (i : PulsInput) : (s.clock i).x1 = s.x1.clock (!i.iX1) := rfl
  have hx10 (s : PulsHw) (i : PulsInput) : (s.clock i).x10 = s.x10.clock (!i.iX10) := rfl
  have hx100 (s : PulsHw) (i : PulsInput) : (s.clock i).x100 = s.x100.clock (!i.iX100) := rfl
  rw [run, trace_part (p := x1) hx1, trace_part (p := x10) hx10, trace_part (p := x100) hx100]
  exact ⟨debounced _ t, debounced _ t, debounced _ t⟩

theorem run_c0 (t : Nat) : (run inp t).c0 = coefficient inp t := by
  cases t with
  | zero => rfl
  | succ t =>
      obtain ⟨hx1, hx10, hx100⟩ := run_flags inp t
      change (run inp t).multiplier = _
      simp only [multiplier, hx1, hx10, hx100, decide_eq_true_eq, coefficient]

variable {inp}

theorem Reads.currStateF {t : Nat} (h : Reads inp t) : (run inp (t + 1)).currStateF = .f1 := h

theorem Reads.qIn {t : Nat} (h : Reads inp t) :
    (run inp (t + 1)).qIn = (inp t).q.toNat / coefficient inp t := by
  rw [run_succ, clock, show (run inp t).nextStateF (inp t).empty = .f1 from h, ← run_c0]
  rfl

theorem run_qSign (t : Nat) : (run inp (t + 1)).qSign = decide ((run inp t).qIn ≠ 0) := rfl

/-- In `F1` the machine reads on exactly as long as `q_sign` is down. -/
theorem reads_iff {t : Nat} (h : (run inp t).currStateF = .f1) :
    Reads inp t ↔ (run inp t).qSign = false := by
  rw [Reads, nextStateF_f1, h]
  simp

/-- Words that are all too small keep the machine in `F1`. -/
theorem stays {t : Nat} (h : Reads inp t) (hin : (run inp t).qIn = 0)
    (hsmall : ∀ u, t ≤ u → (inp u).q.toNat < coefficient inp u) {u : Nat} (htu : t ≤ u) :
    Reads inp u ∧ (run inp u).qIn = 0 := by
  induction u, htu using Nat.le_induction with
  | base => exact ⟨h, hin⟩
  | succ u htu ih =>
      obtain ⟨hread, hzero⟩ := ih
      have hsign : (run inp (u + 1)).qSign = false := by
        rw [run_qSign, hzero]
        rfl
      exact ⟨(reads_iff hread.currStateF).mpr hsign,
        hread.qIn.trans (Nat.div_eq_of_lt (hsmall u htu))⟩

theorem Divides.supplied (h : Divides inp) : Supplied inp where
  selected t hread := run_c0 inp t ▸ h.nonzero t hread
  shown t hread hin := by
    by_contra hnone
    have hsmall (u : Nat) (htu : t ≤ u) : (inp u).q.toNat < coefficient inp u :=
      Nat.lt_of_not_le fun hle => hnone ⟨u, htu, hle⟩
    obtain ⟨u, htu, hleft⟩ := h.leaves (t + 1) hread.currStateF
    obtain ⟨u, rfl⟩ := Nat.exists_eq_add_of_lt htu
    exact hleft (stays hread hin hsmall (by omega : t ≤ t + 1 + u)).1.currStateF

theorem Supplied.divides (h : Supplied inp) : Divides inp where
  nonzero t hread := (run_c0 inp t).symm ▸ h.selected t hread
  leaves t hcurr := by
    by_contra hnone
    have hstay (u : Nat) (htu : t ≤ u) : (run inp u).currStateF = .f1 := by
      cases Nat.lt_or_eq_of_le htu with
      | inl hlt => exact not_not.mp fun hleft => hnone ⟨u, hlt, hleft⟩
      | inr heq => rw [← heq, hcurr]
    -- a stay without an end reads in every cycle and never gets a quotient
    have hread (u : Nat) (htu : t ≤ u) : Reads inp u := hstay (u + 1) (Nat.le_succ_of_le htu)
    have hzero (u : Nat) (htu : t ≤ u) : (run inp u).qIn = 0 := by
      have hnext := Nat.le_succ_of_le htu
      have hsign := (reads_iff (hstay (u + 1) hnext)).mp (hread (u + 1) hnext)
      rwa [run_qSign, decide_eq_false_iff_not, not_not] at hsign
    obtain ⟨u, htu, hle⟩ := h.shown t (hread t (Nat.le_refl t)) (hzero t (Nat.le_refl t))
    have hquot := (hread u htu).qIn
    rw [hzero (u + 1) (Nat.le_succ_of_le htu)] at hquot
    have hpos := Nat.pos_of_ne_zero (h.selected u (hread u htu))
    exact Nat.ne_of_lt (Nat.div_pos hle hpos) hquot

/-- The multiplier divides as it should if and only if it is supplied with a selection and with
words that are large enough. -/
theorem divides_iff_supplied (inp : Nat → PulsInput) : Divides inp ↔ Supplied inp :=
  ⟨Divides.supplied, Supplied.divides⟩

/-- A word is waiting and no switch is closed. -/
theorem unselected_divides : ¬ Divides (fun _ => ⟨false, 6, true, true, true⟩) :=
  fun h => h.nonzero 0 rfl rfl

end Run

end PulsHw

end CncCard
