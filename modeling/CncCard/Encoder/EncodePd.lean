import CncCard.Clocked.Quadrature
import CncCard.Clocked.Trace
import Mathlib.Data.BitVec

/-!
The encoder counters: `encode_pd` of X, Y and Z, and `encode_pd_a` of A. They differ in
what they publish of the pulses up and down: their sum, or for A their difference. A run
is a run from the reset without `renew`.

The direction of a pulse comes from levels that are sampled at the pulse and compared one
cycle later, when the pulse has been counted: each pulse is counted in the direction of
the one before it.
-/

namespace CncCard
open Clocked

structure EncoderInput where
  plusA : Bool
  plusB : Bool
  renew : Bool

structure EncodePd where
  clkCnt : BitVec 18
  countUp : BitVec 32
  countDown : BitVec 32
  countUpT : BitVec 32
  countDownT : BitVec 32
  dirReg : Bool
  signalC : Bool
  signalD : Bool
  countPlus : Bool
  plusATt : Bool
  plusAT : Bool
  plusBT : Bool
  deltaFlag : Bool
  deltaFlagTt : Bool
  deltaFlagT : Bool
  deltaCount : BitVec 32
  totalCount : BitVec 32

namespace EncodePd

def reset : EncodePd where
  clkCnt := 0
  countUp := 0
  countDown := 0
  countUpT := 0
  countDownT := 0
  dirReg := false
  signalC := false
  signalD := false
  countPlus := false
  plusATt := false
  plusAT := false
  plusBT := false
  deltaFlag := false
  deltaFlagTt := false
  deltaFlagT := false
  deltaCount := 0
  totalCount := 0

def deltaPos (s : EncodePd) : Bool := !s.deltaFlagTt && s.deltaFlagT

/-- A counter of the pulses of one direction. -/
def counted (s : EncodePd) (dir : Bool) (old : BitVec 32) : BitVec 32 :=
  if s.dirReg == dir && s.countPlus then old + 1 else old

/-- The clock edge of both modules; `combine` is the operator in which they differ. -/
def clock (combine : BitVec 32 → BitVec 32 → BitVec 32) (s : EncodePd) (i : EncoderInput) :
    EncodePd where
  clkCnt := if s.clkCnt = 99999 then 0 else s.clkCnt + 1
  deltaFlag := s.clkCnt == 99999
  deltaFlagT := s.deltaFlag
  deltaFlagTt := s.deltaFlagT
  signalC := i.plusA ^^ i.plusB
  signalD := s.signalC
  countPlus := s.signalC ^^ s.signalD
  plusAT := if s.countPlus then i.plusA else s.plusAT
  plusATt := if s.countPlus then s.plusAT else s.plusATt
  plusBT := if s.countPlus then i.plusB else s.plusBT
  dirReg := s.plusATt ^^ s.plusBT
  countUp := if i.renew then 0 else if s.deltaPos then 0 else s.counted false s.countUp
  countDown := if i.renew then 0 else if s.deltaPos then 0 else s.counted true s.countDown
  countUpT := if i.renew then 0 else s.counted false s.countUpT
  countDownT := if i.renew then 0 else s.counted true s.countDownT
  deltaCount := if s.deltaFlag then combine s.countUp s.countDown else s.deltaCount
  totalCount := if s.deltaFlag then combine s.countUpT s.countDownT else s.totalCount

end EncodePd

def encodePd : EncodePd → EncoderInput → EncodePd := .clock (· + ·)

def encodePdA : EncodePd → EncoderInput → EncodePd := .clock (· - ·)

namespace EncodePd

def channels (q : Quadrature) (t : Nat) : EncoderInput := ⟨q.a t, q.b t, false⟩

def run (combine : BitVec 32 → BitVec 32 → BitVec 32) (q : Quadrature) : Nat → EncodePd :=
  trace (clock combine) reset (channels q)

section Window

variable (combine : BitVec 32 → BitVec 32 → BitVec 32) (inp : Nat → EncoderInput)

/-- The window counter does not look at the inputs. -/
theorem trace_clkCnt (t : Nat) :
    (trace (clock combine) reset inp t).clkCnt = BitVec.ofNat 18 (t % 100000) := by
  induction t with
  | zero => rfl
  | succ t ih =>
      have hlast : BitVec.ofNat 18 (t % 100000) = 99999 ↔ t % 100000 = 99999 := by
        rw [← BitVec.toNat_inj, BitVec.toNat_ofNat]
        simp only [BitVec.reduceToNat]
        omega
      rw [trace_succ]
      simp only [clock, ih, hlast]
      split
      · next hfull =>
          have hzero : (t + 1) % 100000 = 0 := by omega
          rw [hzero]
          rfl
      · next hpart =>
          have hnext : (t + 1) % 100000 = t % 100000 + 1 := by omega
          rw [hnext, BitVec.ofNat_add]
          rfl

theorem trace_deltaFlag (t : Nat) :
    (trace (clock combine) reset inp t).deltaFlag = true ↔ 0 < t ∧ t % 100000 = 0 := by
  cases t with
  | zero => simp [reset]
  | succ t =>
      rw [trace_succ]
      simp only [clock, trace_clkCnt, beq_iff_eq]
      rw [← BitVec.toNat_inj, BitVec.toNat_ofNat]
      simp only [BitVec.reduceToNat]
      omega

end Window

section Run

variable (combine : BitVec 32 → BitVec 32 → BitVec 32) (q : Quadrature)

theorem run_succ (t : Nat) :
    run combine q (t + 1) = (run combine q t).clock combine (channels q t) := rfl

theorem run_countPlus_early {t : Nat} (ht : t < 3) : (run combine q t).countPlus = false := by
  obtain rfl | rfl | rfl : t = 0 ∨ t = 1 ∨ t = 2 := by omega
  · rfl
  · rfl
  · change ((q.a 0 ^^ q.b 0) ^^ false) = false
    rw [q.low_a, q.low_b]
    rfl

/-- Nothing is sampled before the first pulse. -/
theorem run_sampled_early {t : Nat} (ht : t ≤ 3) :
    (run combine q t).plusAT = false ∧ (run combine q t).plusATt = false ∧
    (run combine q t).plusBT = false := by
  induction t with
  | zero => exact ⟨rfl, rfl, rfl⟩
  | succ t ih =>
      rw [run_succ]
      simp only [clock, run_countPlus_early combine q ht, Bool.false_eq_true, if_false]
      exact ih (Nat.le_of_succ_le ht)

/-- A transition is a pulse three cycles later. -/
theorem run_countPlus (t : Nat) : (run combine q (t + 3)).countPlus = q.moved t := rfl

theorem run_deltaFlag (t : Nat) :
    (run combine q t).deltaFlag = true ↔ 0 < t ∧ t % 100000 = 0 :=
  trace_deltaFlag combine (channels q) t

/-- The last publication before cycle `t`, or the reset. -/
def published (t : Nat) : Nat := 100000 * ((t - 1) / 100000)

theorem run_totalCount (hzero : combine 0 0 = 0) (t : Nat) :
    (run combine q t).totalCount =
      combine (run combine q (published t)).countUpT
        (run combine q (published t)).countDownT := by
  induction t with
  | zero => exact hzero.symm
  | succ t ih =>
      have hflag := run_deltaFlag combine q t
      rw [run_succ]
      simp only [clock]
      split
      · next hup =>
          have hnow : published (t + 1) = t := by
            have := hflag.mp hup
            simp only [published]
            omega
          rw [hnow]
      · next hdown =>
          have hkept : published (t + 1) = published t := by
            rw [hflag] at hdown
            simp only [published]
            omega
          rw [hkept, ih]

/-- Up and down together are the transitions, counted in the right direction or not. -/
theorem run_sum (t : Nat) :
    (run combine q t).countUpT + (run combine q t).countDownT =
      BitVec.ofNat 32 (q.travelled (t - 3)) := by
  induction t with
  | zero => rfl
  | succ t ih =>
      have hcounted (s : EncodePd) (x y : BitVec 32) : s.counted false x + s.counted true y =
          x + y + BitVec.ofNat 32 s.countPlus.toNat := by
        simp only [counted]
        cases s.dirReg <;> cases s.countPlus <;> simp <;> grind
      rw [run_succ]
      simp only [clock, channels, Bool.false_eq_true, if_false]
      rw [hcounted, ih]
      cases Nat.lt_or_ge t 3 with
      | inl hearly =>
          have hnone : t + 1 - 3 = t - 3 := by omega
          rw [run_countPlus_early combine q hearly, hnone]
          simp
      | inr hlate =>
          obtain ⟨k, rfl⟩ := Nat.exists_eq_add_of_le' hlate
          rw [run_countPlus, Nat.add_right_comm, Nat.add_sub_cancel, Nat.add_sub_cancel,
            q.travelled_succ, BitVec.ofNat_add]

end Run

end EncodePd

end CncCard
