import CncCard.Encoder.EncodePd
import CncCard.Pcie.Txproc

/-!
The machine coordinates: the four encoder counters and, behind them, the position
registers of `txproc`, which show how far the published position is from the one at the
last `set_ref`. `encode_pd` publishes the pulses up and down together, so that the
coordinates of X, Y and Z are distances travelled.
-/

namespace CncCard
open Clocked

structure Coordinates where
  enc : Pcie.Axis → EncodePd
  tx : Pcie.Txproc

structure CoordinatesInput where
  plus : Pcie.Axis → EncoderInput
  tx : Pcie.TxInput

def encoder : Pcie.Axis → EncodePd → EncoderInput → EncodePd
  | .x | .y | .z => encodePd
  | .a => encodePdA

def coordinates (s : Coordinates) (i : CoordinatesInput) : Coordinates where
  enc axis := encoder axis (s.enc axis) (i.plus axis)
  tx := Pcie.txproc s.tx
    { i.tx with regs := { i.tx.regs with pos := fun axis => (s.enc axis).totalCount } }

namespace Coordinates

def run (s : Pcie.Txproc) (q : Pcie.Axis → Quadrature) (inp : Nat → Pcie.TxInput) :
    Nat → Coordinates :=
  trace coordinates ⟨fun _ => .reset, s.reset⟩
    fun t => ⟨fun axis => EncodePd.channels (q axis) t, inp t⟩

/-- What the last publication that a position register shows in cycle `t` has seen. -/
def seen (t : Nat) : Nat := EncodePd.published (t - 1) - 3

theorem seen_le (t : Nat) : seen t ≤ t := by
  simp only [seen, EncodePd.published]
  omega

/-- The register shows every transition so far. -/
def Settled (q : Quadrature) (t : Nat) : Prop := ∀ k, seen t ≤ k → k < t → q.moved k = false

/-- Cycle `n` finds the coordinate of an axis settled, with `u` the cycle of the last
`set_ref` and no write of the host to the position registers of the axis. -/
structure Referenced (r : Nat → Coordinates) (q : Quadrature) (inp : Nat → Pcie.TxInput)
    (axis : Pcie.Axis) (u n : Nat) : Prop where
  before : u < n
  set : (inp u).regs.setRef = true
  last : ∀ k, u < k → k < n → (inp k).regs.setRef = false
  posFree : ∀ k, (r k).tx.written (inp k) (.posReg axis) = false
  refFree : ∀ k, (r k).tx.written (inp k) (.posRefReg axis) = false
  realFree : ∀ k, (r k).tx.written (inp k) (.posRealReg axis) = false
  settled : Settled q n

section Run

variable (s : Pcie.Txproc) (q : Pcie.Axis → Quadrature) (inp : Nat → Pcie.TxInput)

theorem run_succ (t : Nat) : run s q inp (t + 1) =
    coordinates (run s q inp t) ⟨fun axis => EncodePd.channels (q axis) t, inp t⟩ := rfl

theorem run_enc {axis : Pcie.Axis} (haxis : axis ≠ .a) (t : Nat) :
    (run s q inp t).enc axis = EncodePd.run (· + ·) (q axis) t := by
  have hsum : encoder axis = encodePd := by
    cases axis with
    | a => exact absurd rfl haxis
    | _ => rfl
  have hstep (c : Coordinates) (i : CoordinatesInput) :
      (coordinates c i).enc axis = encodePd (c.enc axis) (i.plus axis) := by
    rw [← hsum]
    rfl
  exact trace_part (p := fun c : Coordinates => c.enc axis) hstep t

theorem run_totalCount {axis : Pcie.Axis} (haxis : axis ≠ .a) (t : Nat) :
    ((run s q inp t).enc axis).totalCount =
      BitVec.ofNat 32 ((q axis).travelled (EncodePd.published t - 3)) := by
  rw [run_enc s q inp haxis, EncodePd.run_totalCount _ _ rfl]
  exact EncodePd.run_sum _ _ _

variable {s q inp} {axis : Pcie.Axis} {u n : Nat}

theorem run_posReg (haxis : axis ≠ .a) {t : Nat}
    (hfree : ∀ k, (run s q inp k).tx.written (inp k) (.posReg axis) = false) :
    (run s q inp t).tx.regs (.posReg axis) =
      BitVec.ofNat 32 ((q axis).travelled (seen t)) := by
  cases t with
  | zero => rfl
  | succ t =>
      have hpos : (run s q inp (t + 1)).tx.regs (.posReg axis) =
          if (run s q inp t).tx.written (inp t) (.posReg axis) then (inp t).extdq
          else ((run s q inp t).enc axis).totalCount := rfl
      rw [hpos, hfree t, run_totalCount s q inp haxis]
      rfl

namespace Referenced

variable (h : Referenced (run s q inp) (q axis) inp axis u n)
include h

/-- The reference stays what the position was at the last `set_ref`. -/
theorem posRefReg {t : Nat} (hut : u < t) (htn : t ≤ n) :
    (run s q inp t).tx.regs (.posRefReg axis) = (run s q inp u).tx.regs (.posReg axis) := by
  have hstep (t : Nat) : (run s q inp (t + 1)).tx.regs (.posRefReg axis) =
      if (inp t).regs.setRef then (run s q inp t).tx.regs (.posReg axis)
      else if (run s q inp t).tx.written (inp t) (.posRefReg axis) then (inp t).extdq
      else (run s q inp t).tx.regs (.posRefReg axis) := rfl
  induction t, hut using Nat.le_induction with
  | base =>
      rw [hstep, h.set]
      rfl
  | succ t hut ih =>
      rw [hstep, h.last t hut htn, h.refFree t, ← ih (Nat.le_of_succ_le htn)]
      rfl

theorem posRealReg (haxis : axis ≠ .a) :
    (run s q inp (n + 1)).tx.regs (.posRealReg axis) =
      BitVec.ofNat 32 ((q axis).travelled (seen n)) -
        BitVec.ofNat 32 ((q axis).travelled (seen u)) := by
  have hreal : (run s q inp (n + 1)).tx.regs (.posRealReg axis) =
      Pcie.doubleDriven (inp n).regs.race
        ((run s q inp n).tx.written (inp n) (.posRealReg axis))
        ((run s q inp n).tx.regs (.posReg axis) - (run s q inp n).tx.regs (.posRefReg axis))
        (inp n).extdq := rfl
  rw [hreal, h.realFree n, h.posRefReg h.before (Nat.le_refl n), run_posReg haxis h.posFree,
    run_posReg haxis h.posFree]
  rfl

end Referenced

end Run

/-- A settled coordinate of X, Y or Z is, modulo 2^32, the number of transitions, forward
and backward, since what the position showed at the last `set_ref`. -/
theorem coordinate_eq_travelled (s : Pcie.Txproc) (q : Pcie.Axis → Quadrature)
    (inp : Nat → Pcie.TxInput) {axis : Pcie.Axis} (haxis : axis ≠ .a) {u n : Nat}
    (h : Referenced (run s q inp) (q axis) inp axis u n) :
    (run s q inp (n + 1)).tx.regs (.posRealReg axis) =
      BitVec.ofNat 32 ((q axis).travelled n - (q axis).travelled (seen u)) := by
  have hsettled : (q axis).travelled n = (q axis).travelled (seen n) :=
    (q axis).travelled_of_still (seen_le n) h.settled
  have hbefore : (q axis).travelled (seen u) ≤ (q axis).travelled n :=
    Nat.count_monotone _ (Nat.le_trans (seen_le u) (Nat.le_of_lt h.before))
  have hsum : (q axis).travelled (seen n) =
      ((q axis).travelled n - (q axis).travelled (seen u)) + (q axis).travelled (seen u) := by
    rw [← hsettled, Nat.sub_add_cancel hbefore]
  rw [h.posRealReg haxis, hsum, BitVec.ofNat_add, BitVec.add_sub_cancel]

/-- A settled coordinate is the displacement since a `set_ref` that found it settled. -/
def FollowsNet (s : Pcie.Txproc) (q : Pcie.Axis → Quadrature) (inp : Nat → Pcie.TxInput) : Prop :=
  ∀ axis u n, axis ≠ .a → Referenced (run s q inp) (q axis) inp axis u n →
    Settled (q axis) u →
    (run s q inp (n + 1)).tx.regs (.posRealReg axis) =
      BitVec.ofInt 32 ((q axis).net n - (q axis).net u)

/-- One step forward and, ten cycles later, one back. -/
def forthBack : Quadrature where
  a t := decide (0 < t ∧ t < 11)
  b _ := false
  low_a := rfl
  low_b := rfl
  single _ := .inr rfl

/-- `set_ref` in the first cycle only. -/
def setFirst (t : Nat) : Pcie.TxInput :=
  { Pcie.TxInput.quiet with
    regs := { Pcie.TxInput.quiet.regs with setRef := decide (t = 0) } }

theorem forthBack_still {t : Nat} (h : 11 ≤ t) : forthBack.moved t = false := by
  have hlow : ¬ t < 11 := by omega
  have hlow' : ¬ t + 1 < 11 := by omega
  simp [Quadrature.moved, Quadrature.odd, forthBack, hlow, hlow']

theorem travelled_forthBack {n : Nat} (h : 11 ≤ n) : forthBack.travelled n = 2 := by
  rw [forthBack.travelled_of_still h fun t ht _ => forthBack_still ht]
  decide

theorem net_forthBack {n : Nat} (h : 11 ≤ n) : forthBack.net n = 0 := by
  rw [forthBack.net_of_still h fun t ht _ => forthBack_still ht]
  decide

theorem referenced_forthBack :
    Referenced (run .powerUp (fun _ => forthBack) setFirst) forthBack setFirst .x 0 100002 where
  before := by decide
  set := rfl
  last k hk _ := decide_eq_false (by omega)
  posFree _ := rfl
  refFree _ := rfl
  realFree _ := rfl
  settled k hk _ := by
    simp only [seen, EncodePd.published] at hk
    exact forthBack_still (by omega)

theorem coordinate_eq_travelled_forthBack :
    (run .powerUp (fun _ => forthBack) setFirst 100003).tx.regs (.posRealReg .x) = 2 := by
  have h := coordinate_eq_travelled .powerUp (fun _ => forthBack) setFirst (by decide)
    referenced_forthBack
  rw [travelled_forthBack (by decide)] at h
  exact h

theorem followsNet_forthBack_false : ¬ FollowsNet .powerUp (fun _ => forthBack) setFirst := by
  intro h
  have hnet := h .x 0 100002 (by decide) referenced_forthBack fun k _ hk => by omega
  have hshown := referenced_forthBack.posRealReg (by decide)
  rw [travelled_forthBack (by decide)] at hshown
  rw [net_forthBack (by decide), hshown] at hnet
  exact absurd hnet (by decide)

end Coordinates

end CncCard
