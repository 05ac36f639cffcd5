import CncCard.Clocked.Accumulator
import CncCard.Clocked.Hold

/-!
How closely the edges of a phase accumulator follow its inputs: at each cycle the number of
edges is that of the sum of the inputs, divided by the modulus, to within a bound that does
not grow with the time. The rest, what is lost in the cycles that take the modulus back,
grows with the number of edges only. And how long the output is low before it rises and
high before it falls, also where the accumulator is cleared from time to time.
-/

namespace Clocked.Accumulator

variable {C H B : Nat} {u : Nat → Nat}

/-- What the cycles that take the modulus back have not added. -/
theorem skipped_le (hB : ∀ k, u k ≤ B) (i : Nat) :
    ∑ k ∈ Finset.range i, (if C ≤ (run C H u k).sum then u k else 0) ≤ B * wraps C H u i := by
  induction i with
  | zero => simp [wraps]
  | succ i ih =>
      rw [Finset.sum_range_succ, wraps_succ, Nat.mul_add]
      apply Nat.add_le_add ih
      by_cases hwrap : C ≤ (run C H u i).sum
      · simpa [hwrap] using hB i
      · simp [hwrap]

section Bounded

variable (hpos : 0 < H) (hBH : B ≤ H) (hBC : B + H ≤ C) (hB : ∀ k, u k ≤ B)
include hpos hBH hBC hB

theorem sum_of_low (i : Nat) (hout : (run C H u i).out = false) :
    (run C H u i).sum < H + B := by
  cases i with
  | zero => exact Nat.lt_of_lt_of_le hpos (Nat.le_add_right H B)
  | succ i =>
      have hlt := sum_lt hpos (fun k => (hB k).trans hBH)
        (fun k => (Nat.add_le_add_right (hB k) H).trans hBC) i
      have hi := hB i
      rw [run_succ] at hout ⊢
      simp only [step] at hout ⊢
      by_cases hwrap : C ≤ (run C H u i).sum
      · rw [if_pos hwrap]
        omega
      · have hlow : (run C H u i).sum < H := by
          by_contra hhigh
          rw [if_pos ⟨Nat.le_of_not_lt hhigh, Nat.lt_of_not_le hwrap⟩] at hout
          cases hout
        rw [if_neg hwrap]
        omega

/-- No edge comes more than the part of a modulus above the threshold too early. -/
theorem rises_le (i : Nat) :
    C * rises C H u i ≤ ∑ k ∈ Finset.range i, u k + (C - H) := by
  have hC (k : Nat) : u k + H ≤ C := (Nat.add_le_add_right (hB k) H).trans hBC
  have hsum := sum_add_wraps (C := C) (H := H) (u := u) i
  rw [rises_eq hpos (fun k => (hB k).trans hBH) hC, Nat.mul_add]
  cases hout : (run C H u i).out with
  | false =>
      rw [Bool.toNat_false]
      omega
  | true =>
      have hhigh : H ≤ (run C H u i).sum := by
        by_contra hlow
        rw [low_out hC i (Nat.lt_of_not_le hlow)] at hout
        cases hout
      rw [Bool.toNat_true]
      omega

/-- And none comes later than the threshold and what has been lost. -/
theorem le_rises (i : Nat) :
    ∑ k ∈ Finset.range i, u k ≤ C * rises C H u i + H + B * (rises C H u i + 1) := by
  have hC (k : Nat) : u k + H ≤ C := (Nat.add_le_add_right (hB k) H).trans hBC
  have hH (k : Nat) : u k ≤ H := (hB k).trans hBH
  have hsum := sum_add_wraps (C := C) (H := H) (u := u) i
  have hskipped := skipped_le (C := C) (H := H) hB i
  rw [rises_eq hpos hH hC]
  cases hout : (run C H u i).out with
  | false =>
      have hlow := sum_of_low hpos hBH hBC hB i hout
      rw [Bool.toNat_false, Nat.add_zero, Nat.mul_add B]
      omega
  | true =>
      have hlt : (run C H u i).sum < C + B := by
        cases i with
        | zero => exact Nat.lt_of_lt_of_le (by omega : 0 < C) (Nat.le_add_right C B)
        | succ i =>
            have hlt := sum_lt hpos hH hC i
            have hi := hB i
            rw [run_succ]
            simp only [step]
            split <;> omega
      rw [Bool.toNat_true, Nat.mul_add, Nat.mul_add B, Nat.mul_add B]
      omega

end Bounded

section Clearing

/-- The sum against the time for which the output has been where it is. -/
structure Paced (C H B : Nat) (cell : Nat → Cell) (t : Nat) : Prop where
  lt : (cell t).sum < C + B
  low : (cell t).out = false → (cell t).sum < H + B ∧
    (cell t).sum ≤ B * (streak (fun k => !(cell k).out) t + 1)
  high : (cell t).out = true → (cell t).sum < H + B * (streak (fun k => (cell k).out) t + 2)

variable {cell : Nat → Cell} {t : Nat}

theorem paced_cleared (hpos : 0 < H) (hBC : H + B ≤ C) (h : cell t = ⟨0, false⟩) :
    Paced C H B cell t := by
  refine ⟨?_, ?_, ?_⟩
  · rw [h]
    exact Nat.lt_of_lt_of_le hpos
      (((Nat.le_add_right H B).trans hBC).trans (Nat.le_add_right C B))
  · rw [h]
    exact fun _ => ⟨Nat.lt_of_lt_of_le hpos (Nat.le_add_right H B), Nat.zero_le _⟩
  · rw [h]
    exact fun hout => absurd hout Bool.false_ne_true

theorem Paced.step (h : Paced C H B cell t) {x : Nat} (hx : x ≤ B)
    (hnext : cell (t + 1) = step C H (cell t) x) : Paced C H B cell (t + 1) := by
  have hlt := h.lt
  have hlow := h.low
  have hhigh := h.high
  by_cases hwrap : C ≤ (cell t).sum
  · have hcell : cell (t + 1) = ⟨(cell t).sum - C, false⟩ := by
      rw [hnext]
      simp [Accumulator.step, hwrap, Nat.not_lt_of_le hwrap]
    refine ⟨?_, ?_, ?_⟩ <;> rw [hcell]
    · simp only
      omega
    · simp only [forall_const, Nat.mul_add]
      omega
    · exact fun hout => absurd hout Bool.false_ne_true
  · by_cases hover : H ≤ (cell t).sum
    · have hcell : cell (t + 1) = ⟨(cell t).sum + x, true⟩ := by
        rw [hnext]
        simp [Accumulator.step, hwrap, hover, Nat.lt_of_not_le hwrap]
      refine ⟨?_, ?_, ?_⟩ <;> rw [hcell]
      · simp only
        omega
      · exact fun hout => absurd hout (Bool.false_ne_true ∘ Eq.symm)
      · rw [streak]
        cases hout : (cell t).out with
        | false =>
            have hbound := (hlow hout).1
            simp only [forall_const, Bool.false_eq_true, if_false]
            omega
        | true =>
            have hbound := hhigh hout
            simp only [forall_const, if_true, Nat.mul_add] at hbound ⊢
            omega
    · have hcell : cell (t + 1) = ⟨(cell t).sum + x, (cell t).out⟩ := by
        rw [hnext]
        simp [Accumulator.step, hwrap, hover]
      refine ⟨?_, ?_, ?_⟩ <;> rw [hcell]
      · simp only
        omega
      · rw [streak]
        simp only
        intro hout
        have hbound := (hlow hout).2
        simp only [hout, Bool.not_false, if_true, Nat.mul_add] at hbound ⊢
        omega
      · simp only [Nat.mul_add]
        omega

variable (cell) {clear : Nat → Bool} (hpos : 0 < H) (hBC : H + B ≤ C) (hB : ∀ k, u k ≤ B)
  (hstart : cell 0 = ⟨0, false⟩)
  (hstep : ∀ t, cell (t + 1) = if clear t then ⟨0, false⟩ else step C H (cell t) (u t))
include hpos hBC hB hstart hstep

theorem paced (t : Nat) : Paced C H B cell t := by
  induction t with
  | zero => exact paced_cleared hpos hBC hstart
  | succ t ih =>
      have hnext := hstep t
      cases hclear : clear t with
      | true =>
          rw [hclear, if_pos rfl] at hnext
          exact paced_cleared hpos hBC hnext
      | false =>
          rw [hclear, if_neg Bool.false_ne_true] at hnext
          exact ih.step (hB t) hnext

/-- The output rises only after it has been low for the time that the inputs take up to the
threshold. -/
theorem low_before_rise (n : Nat) (hn : B * n < H) {t : Nat} (hlow : (cell t).out = false)
    (hhigh : (cell (t + 1)).out = true) : Held (fun k => !(cell k).out) (n + 1) (t + 1) := by
  have hpaced := (paced cell hpos hBC hB hstart hstep t).low hlow
  have hover : H ≤ (cell t).sum := by
    by_contra hunder
    rw [hstep] at hhigh
    split at hhigh
    · cases hhigh
    · simp only [step] at hhigh
      rw [if_neg (fun h => hunder h.1)] at hhigh
      split at hhigh
      · cases hhigh
      · rw [hlow] at hhigh
        cases hhigh
  rw [held_iff, streak, hlow, Bool.not_false, if_pos rfl]
  have hle : n < streak (fun k => !(cell k).out) t + 1 :=
    Nat.lt_of_mul_lt_mul_left (Nat.lt_of_lt_of_le hn (Nat.le_trans hover hpaced.2))
  omega

/-- It falls only after the time that the inputs take from the threshold to the modulus, or
where the accumulator is cleared. -/
theorem high_before_fall (n : Nat) (hn : H + B * (n + 1) ≤ C) {t : Nat}
    (hhigh : (cell t).out = true) (hlow : (cell (t + 1)).out = false) (hkept : clear t = false) :
    Held (fun k => (cell k).out) (n + 1) (t + 1) := by
  have hpaced := (paced cell hpos hBC hB hstart hstep t).high hhigh
  have hover : C ≤ (cell t).sum := by
    by_contra hunder
    rw [hstep, hkept, if_neg Bool.false_ne_true] at hlow
    simp only [step, hunder, if_false, hhigh] at hlow
    split at hlow <;> cases hlow
  rw [held_iff, streak, hhigh, if_pos rfl]
  have hle : n + 1 < streak (fun k => (cell k).out) t + 2 := by
    refine Nat.lt_of_mul_lt_mul_left (a := B) ?_
    omega
  omega

end Clearing

end Clocked.Accumulator
