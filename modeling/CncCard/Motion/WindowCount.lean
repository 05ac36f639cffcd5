import CncCard.Motion.Interpolation

/-!
The interpolator by itself, with a value held through each window: a window gives as many
pulses as its value says, and the accumulator stays below one addition past the modulus.
-/

namespace CncCard
open Clocked

namespace Interpolation

variable {data : Nat → BitVec 17}

theorem running_start (data : Nat → BitVec 17) (j : Nat) :
    (running data (249999 * j + 1)).cell = ⟨0, false⟩ := by
  cases Nat.eq_zero_or_pos j with
  | inl hzero => subst hzero; rfl
  | inr hpos => exact running_clear data hpos

/-- A window with the value `d` has `d` rising edges: `d * (d + 2)` is at most 125000. -/
theorem running_window {j d : Nat} (hd : d ≤ 127)
    (hhold : ∀ t, 249999 * j < t → t < 249999 * (j + 1) → (running data t).dataReg = d) :
    edges (fun t => (running data t).q) (fun _ => true)
      (249999 * j + 1) (249999 * (j + 1) + 1) = d := by
  have hfirst : edges (fun t => (running data t).q) (fun _ => true)
      (249999 * j + 1) (249999 * j + 1 + 1) = 0 := by
    rw [edges_succ_low _ (Nat.le_refl _), edges_self]
    exact congrArg Accumulator.Cell.out (running_start data j)
  have hrest := running_edges (u := fun _ => d) (c := 249999 * j + 1) (n := 249998)
    (fun _ => hd) (fun k hk => hhold _ (by omega) (by omega)) (running_start data j)
    (fun k hk => running_flag_low data j hk) 249998 (Nat.le_refl _)
  have hrises : Accumulator.rises clocks (clocks / 2) (fun _ => d) 249998 = d := by
    have hsquare : d * d ≤ 127 * d := Nat.mul_le_mul_right d hd
    refine (Accumulator.rises_two_rate (m := 0) (a := 0) (n := 249997) (by decide)
      (fun _ => hd.trans (by decide)) (fun _ => (Nat.add_le_add_right hd _).trans (by decide))
      (Nat.zero_le _) (by decide) (fun k hk => absurd hk (Nat.not_lt_zero k))
      (fun _ _ _ => rfl) (by decide)).mpr ?_
    simp only [clocks, Nat.mul_add, Nat.mul_zero]
    omega
  rw [← edges_append _ _ (Nat.le_succ (249999 * j + 1)) (by omega), hfirst, Nat.zero_add,
    show 249999 * (j + 1) + 1 = 249999 * j + 1 + 1 + 249998 by omega, hrest, hrises]

/-- The value that is added last before the modulus comes off is the only excess. -/
theorem running_sum_lt {m : Nat}
    (hle : ∀ t < m, (running data t).clkFlag = false → (running data t).dataReg ≤ 127) (t : Nat)
    (ht : t ≤ m) : (running data t).sum < clocks + 127 := by
  induction t with
  | zero => exact Nat.succ_pos _
  | succ t ih =>
      have hsum := ih (Nat.le_of_succ_le ht)
      have hdata := hle t ht
      rw [running_succ]
      simp only [interpolation, Bool.not_true, Bool.false_eq_true, if_false]
      cases hflag : (running data t).clkFlag with
      | true => exact Nat.succ_pos _
      | false =>
          have hbound := hdata hflag
          rw [if_neg Bool.false_ne_true]
          by_cases hwrap : clocks ≤ (running data t).sum
          · rw [if_pos hwrap]
            omega
          · rw [if_neg hwrap]
            exact Nat.lt_of_le_of_lt (Nat.mod_le _ _) (by omega)

/-- The windows of a list, one after the other. -/
def Holds (data : Nat → BitVec 17) (ds : List Nat) : Prop :=
  ∀ j (hj : j < ds.length), ∀ t, 249999 * j < t → t < 249999 * (j + 1) →
    (running data t).dataReg = ds[j]

theorem Holds.count {ds : List Nat} (h : Holds data ds) (hds : ∀ d ∈ ds, d ≤ 127) (j : Nat)
    (hj : j ≤ ds.length) :
    edges (fun t => (running data t).q) (fun _ => true) 1 (249999 * j + 1) =
      (ds.take j).sum := by
  induction j with
  | zero => exact edges_self _ _ 1
  | succ j ih =>
      have hwindow := running_window (hds _ (List.getElem_mem hj)) (h j hj)
      rw [← edges_append _ _ (show 1 ≤ 249999 * j + 1 by omega)
        (show 249999 * j + 1 ≤ 249999 * (j + 1) + 1 by omega), ih (Nat.le_of_succ_le hj),
        hwindow, List.sum_take_succ _ _ hj]

theorem Holds.dataReg_le {ds : List Nat} (h : Holds data ds) (hds : ∀ d ∈ ds, d ≤ 127) {t : Nat}
    (ht : t < 249999 * ds.length + 1) (hflag : (running data t).clkFlag = false) :
    (running data t).dataReg ≤ 127 := by
  cases t with
  | zero => exact Nat.zero_le _
  | succ t =>
      rw [running_clkFlag, decide_eq_false_iff_not] at hflag
      have hj : (t + 1) / 249999 < ds.length := by omega
      rw [h _ hj (t + 1) (by omega) (by omega)]
      exact hds _ (List.getElem_mem hj)

/-- With a value of 0 to 127 held through each window, every window gives exactly its
value in rising edges, `n` windows give the sum, and the register `sum` stays below
250000 + 127. -/
theorem windows_exact (data : Nat → BitVec 17) (ds : List Nat) (hds : ∀ d ∈ ds, d ≤ 127)
    (hhold : ∀ j (hj : j < ds.length), ∀ t, 249999 * j < t → t < 249999 * (j + 1) →
      (running data t).dataReg = ds[j]) :
    (∀ j (hj : j < ds.length), edges (fun t => (running data t).q) (fun _ => true)
        (249999 * j + 1) (249999 * (j + 1) + 1) = ds[j]) ∧
      edges (fun t => (running data t).q) (fun _ => true) 1 (249999 * ds.length + 1) = ds.sum ∧
      ∀ t ≤ 249999 * ds.length + 1, (running data t).sum < 250000 + 127 := by
  have hholds : Holds data ds := hhold
  refine ⟨fun j hj => running_window (hds _ (List.getElem_mem hj)) (hhold j hj), ?_, ?_⟩
  · rw [hholds.count hds ds.length (Nat.le_refl _), List.take_length]
  · exact running_sum_lt fun t ht hflag => hholds.dataReg_le hds ht hflag

/-- Five pulses in the first window and seven in the second. -/
theorem windows_exact_fiveSeven :
    edges (fun t => (running (fun t => if t < 249999 then 5 else 7) t).q) (fun _ => true) 1
      (249999 * 2 + 1) = 12 := by
  refine (windows_exact (fun t => if t < 249999 then 5 else 7) [5, 7] (by decide) ?_).2.1
  intro j hj t hlow hhigh
  obtain ⟨t, rfl⟩ : ∃ k, t = k + 1 := ⟨t - 1, by omega⟩
  obtain rfl | rfl : j = 0 ∨ j = 1 := by simp only [List.length_cons, List.length_nil] at hj; omega
  · simp [running_succ, interpolation, show t < 249999 by omega]
  · simp [running_succ, interpolation, show ¬ t < 249999 by omega]

end Interpolation

end CncCard
