import CncCard.Encoder.EncodePd

/-!
The position of the A axis over reversals. A pulse is counted in the direction of the one
before it, the first one up, so that the difference of the counters is the position if
the last transition was forward, and two more if it was backward.
-/

namespace CncCard
open Clocked

namespace EncodePd

section Spaced

variable (combine : BitVec 32 → BitVec 32 → BitVec 32) (q : SpacedQuadrature)

/-- After a transition the channels stay until the pulse samples them. -/
theorem still_of_moved {t : Nat} (h : q.moved t = true) :
    q.moved (t + 1) = false ∧ q.moved (t + 2) = false := by
  constructor
  · by_contra hnext
    have := q.spaced t (t + 1) (by omega) h (by simpa using hnext)
    omega
  · by_contra hnext
    have := q.spaced t (t + 2) (by omega) h (by simpa using hnext)
    omega

/-- The sampled levels are those before the next transition, and the two that are compared
tell the direction of the last one. -/
theorem run_sampled (t : Nat) :
    (run combine q.toQuadrature (t + 3)).plusAT = q.a t ∧
    (run combine q.toQuadrature (t + 3)).plusBT = q.b t ∧
    ((run combine q.toQuadrature (t + 3)).plusATt ^^ q.b t) = q.lastBackward t := by
  induction t with
  | zero =>
      obtain ⟨hA, hA', hB⟩ := run_sampled_early combine q.toQuadrature (Nat.le_refl 3)
      rw [hA, hA', hB, q.low_a, q.low_b]
      exact ⟨rfl, rfl, rfl⟩
  | succ t ih =>
      obtain ⟨hA, hB, hdir⟩ := ih
      have hcases := q.move_cases t
      rw [Nat.add_right_comm, run_succ, Quadrature.lastBackward]
      simp only [clock, run_countPlus, hA, hB]
      cases hm : q.moved t with
      | false =>
          obtain ⟨hsameA, hsameB⟩ := q.same_of_not_moved hm
          simpa only [Bool.false_eq_true, if_false, hsameA, hsameB, true_and] using hdir
      | true =>
          obtain ⟨hstill, hstill'⟩ := still_of_moved q hm
          obtain ⟨hsameA, hsameB⟩ := q.same_of_not_moved hstill
          obtain ⟨hsameA', hsameB'⟩ := q.same_of_not_moved hstill'
          have hlateA : q.a (t + 3) = q.a (t + 1) := hsameA'.trans hsameA
          have hlateB : q.b (t + 3) = q.b (t + 1) := hsameB'.trans hsameB
          simp only [if_true, channels]
          refine ⟨hlateA, hlateB, ?_⟩
          simp only [hm, Bool.true_eq_false, false_and, true_and, false_or,
            Quadrature.forward, Quadrature.backward] at hcases ⊢
          revert hcases
          cases q.a t <;> cases q.b t <;> cases q.a (t + 1) <;> cases q.b (t + 1) <;> simp

theorem run_dirReg (t : Nat) :
    (run combine q.toQuadrature (t + 4)).dirReg = q.lastBackward t := by
  obtain ⟨-, hB, hdir⟩ := run_sampled combine q t
  rw [run_succ]
  simp only [clock]
  rw [hB, hdir]

/-- A pulse is counted in the direction of the transition before its own. -/
theorem run_pulse (dir : Bool) (t : Nat) :
    ((run combine q.toQuadrature (t + 3)).dirReg == dir &&
      (run combine q.toQuadrature (t + 3)).countPlus) =
      (q.moved t && q.lastBackward t == dir) := by
  rw [run_countPlus, Bool.and_comm]
  cases hm : q.moved t with
  | false => rfl
  | true =>
      cases t with
      | zero =>
          obtain ⟨-, hA, hB⟩ := run_sampled_early combine q.toQuadrature (t := 2) (by omega)
          rw [run_succ]
          simp only [clock, hA, hB]
          rfl
      | succ t =>
          have hbefore : q.moved t = false := by
            by_contra hmoved
            have := q.spaced t (t + 1) (by omega) (by simpa using hmoved) hm
            omega
          rw [Nat.add_right_comm, run_dirReg, Quadrature.lastBackward, hbefore]
          rfl

theorem run_counters (t : Nat) :
    (run combine q.toQuadrature t).countUpT = BitVec.ofNat 32 (q.after false (t - 3)) ∧
    (run combine q.toQuadrature t).countDownT = BitVec.ofNat 32 (q.after true (t - 3)) := by
  induction t with
  | zero => exact ⟨rfl, rfl⟩
  | succ t ih =>
      obtain ⟨hup, hdown⟩ := ih
      rw [run_succ]
      simp only [clock, channels, counted, Bool.false_eq_true, if_false, hup, hdown]
      cases Nat.lt_or_ge t 3 with
      | inl hearly =>
          have hnone : t + 1 - 3 = t - 3 := by omega
          simp [run_countPlus_early combine q.toQuadrature hearly, hnone]
      | inr hlate =>
          obtain ⟨k, rfl⟩ := Nat.exists_eq_add_of_le' hlate
          have hnext : k + 3 + 1 - 3 = k + 1 := by omega
          simp only [run_pulse, hnext, Nat.add_sub_cancel, q.after_succ, BitVec.ofNat_add]
          constructor
          · cases q.moved k && q.lastBackward k == false <;> simp
          · cases q.moved k && q.lastBackward k == true <;> simp

theorem counters_sub (t : Nat) :
    (run combine q.toQuadrature t).countUpT - (run combine q.toQuadrature t).countDownT =
      BitVec.ofInt 32 (q.net (t - 3) + if q.lastBackward (t - 3) then 2 else 0) := by
  rw [← q.after_sub_after, (run_counters combine q t).1, (run_counters combine q t).2,
    Int.sub_eq_add_neg, BitVec.ofInt_add, BitVec.ofInt_neg, BitVec.ofInt_natCast,
    BitVec.ofInt_natCast, BitVec.sub_eq_add_neg]

end Spaced

/-- Each publication of the A axis shows the forward less the backward transitions that
the pipeline has seen. -/
def Accurate (q : SpacedQuadrature) : Prop :=
  ∀ t, (run (· - ·) q.toQuadrature t).deltaFlag = true →
    (run (· - ·) q.toQuadrature (t + 1)).totalCount = BitVec.ofInt 32 (q.net (t - 3))

theorem run_publication (q : SpacedQuadrature) {t : Nat}
    (hflag : (run (· - ·) q.toQuadrature t).deltaFlag = true) :
    (run (· - ·) q.toQuadrature (t + 1)).totalCount =
      BitVec.ofInt 32 (q.net (t - 3) + if q.lastBackward (t - 3) then 2 else 0) := by
  rw [← counters_sub (· - ·), run_succ]
  simp only [clock, hflag, if_true]

theorem run_publication_eq (q : SpacedQuadrature) {t : Nat}
    (hflag : (run (· - ·) q.toQuadrature t).deltaFlag = true) :
    (run (· - ·) q.toQuadrature (t + 1)).totalCount = BitVec.ofInt 32 (q.net (t - 3)) ↔
      q.lastBackward (t - 3) = false := by
  rw [run_publication q hflag, BitVec.ofInt_add]
  cases q.lastBackward (t - 3) with
  | false => simp
  | true => simp

/-- The publications are right if and only if the last transition before each was forward,
or there was none. -/
theorem accurate_iff (q : SpacedQuadrature) :
    Accurate q ↔ ∀ k, q.lastBackward (100000 * k + 99997) = false := by
  constructor
  · intro h k
    have hflag : (run (· - ·) q.toQuadrature (100000 * k + 100000)).deltaFlag = true :=
      (run_deltaFlag _ _ _).mpr (by omega)
    have hseen : 100000 * k + 99997 = 100000 * k + 100000 - 3 := by omega
    rw [hseen]
    exact (run_publication_eq q hflag).mp (h _ hflag)
  · intro h t hflag
    obtain ⟨hpos, hround⟩ := (run_deltaFlag _ _ _).mp hflag
    have hseen : t - 3 = 100000 * (t / 100000 - 1) + 99997 := by omega
    rw [run_publication_eq q hflag, hseen]
    exact h _

/-- One step back and no more. -/
def backOnce : SpacedQuadrature where
  a _ := false
  b t := decide (0 < t)
  low_a := rfl
  low_b := rfl
  single _ := .inl rfl
  spaced s t hst _ ht := by
    simp [Quadrature.moved, Quadrature.odd] at ht
    exact absurd (ht ▸ hst) (Nat.not_lt_zero s)

theorem lastBackward_backOnce (n : Nat) : backOnce.lastBackward (n + 1) = true := by
  induction n with
  | zero => decide
  | succ n ih =>
      rw [Quadrature.lastBackward, ih]
      simp [Quadrature.moved, Quadrature.odd, backOnce]

theorem accurate_backOnce_false : ¬ Accurate backOnce := by
  intro h
  have hflag : (run (· - ·) backOnce.toQuadrature 100000).deltaFlag = true :=
    (run_deltaFlag _ _ _).mpr (by decide)
  have hlast := (run_publication_eq backOnce hflag).mp (h 100000 hflag)
  rw [lastBackward_backOnce 99996] at hlast
  cases hlast

end EncodePd

end CncCard
