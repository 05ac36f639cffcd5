import CncCard.Encoder.EncodePd

/-!
The increments of the A axis: what `encode_pd_a` publishes of each window, and whether
this adds up to the total. The counters of a window are latched with `delta_flag` and
cleared two clock edges later. A pulse in the cycle of the latch or in the next one is in
the total, and it is cleared before an increment shows it.
-/

namespace CncCard
open Clocked

namespace EncodePd

def levels (a b : Nat → Bool) (t : Nat) : EncoderInput := ⟨a t, b t, false⟩

/-- The A axis with any levels of its channels, without `renew`. -/
def runLevels (a b : Nat → Bool) : Nat → EncodePd := trace encodePdA reset (levels a b)

/-- The sum of the increments that are published before cycle `t`. -/
def increments (r : Nat → EncodePd) : Nat → BitVec 32
  | 0 => 0
  | t + 1 => if (r t).deltaFlag then increments r t + (r (t + 1)).deltaCount else increments r t

/-- At each publication the increments so far are the total. -/
def AddUp (r : Nat → EncodePd) : Prop :=
  ∀ t, (r t).deltaFlag = true → increments r (t + 1) = (r (t + 1)).totalCount

/-- What the clock edge adds to the total. -/
def pulse (s : EncodePd) : BitVec 32 := s.counted false 0 - s.counted true 0

theorem counted_sub (s : EncodePd) (x y : BitVec 32) :
    s.counted false x - s.counted true y = x - y + s.pulse := by
  simp only [pulse, counted]
  cases s.dirReg <;> cases s.countPlus <;> simp <;> grind

/-- What the total has and neither the increments so far nor the counters of the window. -/
def unshown (r : Nat → EncodePd) (t : Nat) : BitVec 32 :=
  (r t).countUpT - (r t).countDownT - ((r t).countUp - (r t).countDown) - increments r t

section Levels

variable (a b : Nat → Bool)

/-- The levels differ where they agreed in the cycle before, or the other way round. -/
def changed : Nat → Bool
  | 0 => a 0 ^^ b 0
  | t + 1 => (a (t + 1) ^^ b (t + 1)) ^^ (a t ^^ b t)

/-- The level of a channel two cycles after the last change. -/
def sampled (x : Nat → Bool) : Nat → Bool
  | 0 => false
  | t + 1 => if changed a b t then x (t + 2) else sampled x t

/-- The sample before the last one. -/
def sampledBefore (x : Nat → Bool) : Nat → Bool
  | 0 => false
  | t + 1 => if changed a b t then sampled a b x t else sampledBefore x t

/-- The direction in which a change is counted. -/
def direction : Nat → Bool
  | 0 => false
  | t + 1 => sampledBefore a b a t ^^ sampled a b b t

theorem runLevels_succ (t : Nat) :
    runLevels a b (t + 1) = encodePdA (runLevels a b t) (levels a b t) := rfl

theorem runLevels_countPlus (t : Nat) : (runLevels a b (t + 2)).countPlus = changed a b t := by
  cases t with
  | zero =>
      change ((a 0 ^^ b 0) ^^ false) = (a 0 ^^ b 0)
      rw [Bool.xor_false]
  | succ t => rfl

theorem runLevels_sampled (t : Nat) :
    (runLevels a b (t + 2)).plusAT = sampled a b a t ∧
    (runLevels a b (t + 2)).plusATt = sampledBefore a b a t ∧
    (runLevels a b (t + 2)).plusBT = sampled a b b t := by
  induction t with
  | zero => exact ⟨rfl, rfl, rfl⟩
  | succ t ih =>
      obtain ⟨hA, hA', hB⟩ := ih
      rw [Nat.add_right_comm, runLevels_succ]
      simp only [encodePdA, clock, runLevels_countPlus, hA, hA', hB, sampled, sampledBefore,
        levels]
      exact ⟨trivial, trivial, trivial⟩

theorem runLevels_dirReg (t : Nat) : (runLevels a b (t + 2)).dirReg = direction a b t := by
  cases t with
  | zero => rfl
  | succ t =>
      obtain ⟨-, hA, hB⟩ := runLevels_sampled a b t
      rw [Nat.add_right_comm, runLevels_succ, direction, ← hA, ← hB]
      rfl

theorem runLevels_pulse (t : Nat) : (runLevels a b (t + 2)).pulse =
    if changed a b t then (if direction a b t then -1 else 1) else 0 := by
  simp only [pulse, counted, runLevels_countPlus, runLevels_dirReg]
  cases changed a b t <;> cases direction a b t <;> rfl

theorem runLevels_deltaFlag (t : Nat) :
    (runLevels a b t).deltaFlag = true ↔ 0 < t ∧ t % 100000 = 0 :=
  trace_deltaFlag (· - ·) (levels a b) t

/-- The counters of the window are cleared in the cycle after the latch. -/
theorem runLevels_deltaPos (t : Nat) :
    (runLevels a b (t + 1)).deltaPos = (runLevels a b t).deltaFlag := by
  cases t with
  | zero => rfl
  | succ t =>
      have hpos : (runLevels a b (t + 1 + 1)).deltaPos =
          (!(runLevels a b t).deltaFlag && (runLevels a b (t + 1)).deltaFlag) := rfl
      have hflag := runLevels_deltaFlag a b
      rw [hpos]
      cases hbefore : (runLevels a b t).deltaFlag with
      | false => rw [Bool.not_false, Bool.true_and]
      | true =>
          cases hnow : (runLevels a b (t + 1)).deltaFlag with
          | false => rfl
          | true =>
              rw [hflag] at hbefore hnow
              omega

theorem runLevels_total (t : Nat) :
    (runLevels a b (t + 1)).countUpT - (runLevels a b (t + 1)).countDownT =
      (runLevels a b t).countUpT - (runLevels a b t).countDownT + (runLevels a b t).pulse :=
  counted_sub (runLevels a b t) _ _

theorem runLevels_window {t : Nat} (hpos : (runLevels a b t).deltaPos = false) :
    (runLevels a b (t + 1)).countUp - (runLevels a b (t + 1)).countDown =
      (runLevels a b t).countUp - (runLevels a b t).countDown + (runLevels a b t).pulse := by
  rw [← counted_sub, runLevels_succ]
  simp only [encodePdA, clock, levels, hpos, Bool.false_eq_true, if_false]

theorem runLevels_cleared {t : Nat} (hpos : (runLevels a b t).deltaPos = true) :
    (runLevels a b (t + 1)).countUp - (runLevels a b (t + 1)).countDown = 0 := by
  rw [runLevels_succ]
  simp only [encodePdA, clock, levels, hpos, Bool.false_eq_true, if_false, if_true]
  rfl

theorem increments_flag {t : Nat} (hflag : (runLevels a b t).deltaFlag = true) :
    increments (runLevels a b) (t + 1) = increments (runLevels a b) t +
      ((runLevels a b t).countUp - (runLevels a b t).countDown) := by
  have hdelta : (runLevels a b (t + 1)).deltaCount =
      (runLevels a b t).countUp - (runLevels a b t).countDown := if_pos hflag
  rw [increments, if_pos hflag, hdelta]

theorem increments_quiet {t : Nat} (hflag : (runLevels a b t).deltaFlag = false) :
    increments (runLevels a b) (t + 1) = increments (runLevels a b) t := by
  rw [increments, hflag]
  rfl

theorem unshown_step {t : Nat} (hflag : (runLevels a b t).deltaFlag = false)
    (hpos : (runLevels a b t).deltaPos = false) :
    unshown (runLevels a b) (t + 1) = unshown (runLevels a b) t := by
  rw [unshown, unshown, runLevels_total, runLevels_window a b hpos, increments_quiet a b hflag]
  grind

/-- The two pulses that no increment shows. -/
theorem unshown_latch {t : Nat} (hflag : (runLevels a b t).deltaFlag = true) :
    unshown (runLevels a b) (t + 2) = unshown (runLevels a b) t +
      ((runLevels a b t).pulse + (runLevels a b (t + 1)).pulse) := by
  have htime := runLevels_deltaFlag a b
  have hbefore : (runLevels a b t).deltaPos = false := by
    obtain ⟨k, rfl⟩ : ∃ k, t = k + 1 := Nat.exists_eq_succ_of_ne_zero (by
      have := (htime t).mp hflag
      omega)
    rw [runLevels_deltaPos, Bool.eq_false_iff]
    intro h
    have := (htime k).mp h
    have := (htime (k + 1)).mp hflag
    omega
  have hafter : (runLevels a b (t + 1)).deltaFlag = false := by
    rw [Bool.eq_false_iff]
    intro h
    have := (htime t).mp hflag
    have := (htime (t + 1)).mp h
    omega
  have hclear : (runLevels a b (t + 1)).deltaPos = true := by rw [runLevels_deltaPos, hflag]
  rw [unshown, unshown, runLevels_total, runLevels_total, runLevels_cleared a b hclear,
    increments_quiet a b hafter, increments_flag a b hflag]
  grind

theorem unshown_kept {m n : Nat} (hmn : m ≤ n)
    (hquiet : ∀ t, m ≤ t → t < n →
      (runLevels a b t).deltaFlag = false ∧ (runLevels a b t).deltaPos = false) :
    unshown (runLevels a b) n = unshown (runLevels a b) m := by
  induction n, hmn using Nat.le_induction with
  | base => rfl
  | succ n hmn ih =>
      obtain ⟨hflag, hpos⟩ := hquiet n hmn (Nat.lt_succ_self n)
      rw [unshown_step a b hflag hpos, ih fun t hmt htn => hquiet t hmt (Nat.lt_succ_of_lt htn)]

theorem quiet_of_between {t : Nat} (h : t % 100000 ≠ 0 ∨ t = 0)
    (h' : t % 100000 ≠ 1 ∨ t = 1) :
    (runLevels a b t).deltaFlag = false ∧ (runLevels a b t).deltaPos = false := by
  have htime := runLevels_deltaFlag a b
  constructor
  · rw [Bool.eq_false_iff]
    intro hflag
    have := (htime t).mp hflag
    omega
  · cases t with
    | zero => rfl
    | succ t =>
        rw [runLevels_deltaPos, Bool.eq_false_iff]
        intro hflag
        have := (htime t).mp hflag
        omega

/-- The end of window `k`. -/
def latch (k : Nat) : Nat := 100000 * (k + 1)

theorem latch_deltaFlag (k : Nat) : (runLevels a b (latch k)).deltaFlag = true :=
  (runLevels_deltaFlag a b _).mpr (by simp only [latch]; omega)

theorem unshown_first : unshown (runLevels a b) (latch 0) = 0 := by
  have hstart : unshown (runLevels a b) 0 = 0 := by
    change ((0 : BitVec 32) - 0 - (0 - 0)) - 0 = 0
    decide
  rw [← hstart]
  apply unshown_kept a b (Nat.zero_le _)
  intro t _ ht
  simp only [latch] at ht
  exact quiet_of_between a b (by omega) (by omega)

theorem unshown_next (k : Nat) : unshown (runLevels a b) (latch (k + 1)) =
    unshown (runLevels a b) (latch k) +
      ((runLevels a b (latch k)).pulse + (runLevels a b (latch k + 1)).pulse) := by
  rw [← unshown_latch a b (latch_deltaFlag a b k)]
  apply unshown_kept
  · simp only [latch]
    omega
  · intro t hmt htn
    simp only [latch] at hmt htn
    exact quiet_of_between a b (by omega) (by omega)

theorem addUp_iff_unshown : AddUp (runLevels a b) ↔ ∀ k, unshown (runLevels a b) (latch k) = 0 := by
  have hpublished {t : Nat} (hflag : (runLevels a b t).deltaFlag = true) :
      increments (runLevels a b) (t + 1) = (runLevels a b (t + 1)).totalCount ↔
        unshown (runLevels a b) t = 0 := by
    have htotal : (runLevels a b (t + 1)).totalCount =
        (runLevels a b t).countUpT - (runLevels a b t).countDownT := if_pos hflag
    rw [htotal, increments_flag a b hflag, unshown]
    grind
  constructor
  · intro h k
    exact (hpublished (latch_deltaFlag a b k)).mp (h _ (latch_deltaFlag a b k))
  · intro h t hflag
    obtain ⟨hpos, hround⟩ := (runLevels_deltaFlag a b t).mp hflag
    have hlatch : latch (t / 100000 - 1) = t := by
      simp only [latch]
      omega
    rw [hpublished hflag, ← hlatch]
    exact h _

/-- The changes in cycle `t` and the next one leave the total as it was. -/
def Cancel (t : Nat) : Prop :=
  changed a b t = changed a b (t + 1) ∧
    (changed a b t = true → direction a b t ≠ direction a b (t + 1))

theorem pulses_eq_zero_iff (t : Nat) :
    (runLevels a b (t + 2)).pulse + (runLevels a b (t + 2 + 1)).pulse = 0 ↔ Cancel a b t := by
  rw [Nat.add_right_comm t 2 1, runLevels_pulse, runLevels_pulse, Cancel]
  cases changed a b t <;> cases changed a b (t + 1) <;> cases direction a b t <;>
    cases direction a b (t + 1) <;> decide

theorem latch_pulses (k : Nat) :
    (runLevels a b (latch k)).pulse + (runLevels a b (latch k + 1)).pulse = 0 ↔
      Cancel a b (100000 * k + 99998) := by
  have hlatch : latch k = 100000 * k + 99998 + 2 := by
    simp only [latch]
    omega
  rw [← pulses_eq_zero_iff, hlatch]

theorem cancel_of_addUp (h : AddUp (runLevels a b)) (k : Nat) :
    Cancel a b (100000 * k + 99998) := by
  rw [addUp_iff_unshown] at h
  rw [← latch_pulses, ← zero_add ((runLevels a b (latch k)).pulse + _), ← h k,
    ← unshown_next, h, h]

end Levels

/-- The increments add up to the total if and only if the changes in the last two cycles
before each latch cancel. -/
theorem addUp_iff (a b : Nat → Bool) :
    AddUp (runLevels a b) ↔ ∀ k, Cancel a b (100000 * k + 99998) := by
  refine ⟨cancel_of_addUp a b, fun h => ?_⟩
  rw [addUp_iff_unshown]
  intro k
  induction k with
  | zero => exact unshown_first a b
  | succ k ih => rw [unshown_next, ih, (latch_pulses a b k).mpr (h k), add_zero]

/-- One step, seen in the cycle of the first latch. -/
def lateStep (t : Nat) : Bool := decide (99998 ≤ t)

theorem addUp_lateStep_false : ¬ AddUp (runLevels lateStep fun _ => false) := by
  intro h
  exact absurd (cancel_of_addUp _ _ h 0).1 (by decide)

end EncodePd

end CncCard
