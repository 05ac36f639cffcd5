import CncCard.Clocked.Trace
import CncCard.Clocked.Edges
import Mathlib.Algebra.BigOperators.Ring.Finset
import Mathlib.Tactic.Linarith
import Mathlib.Tactic.Ring

/-!
A phase accumulator with modulus `C` and threshold `H`: each cycle adds its
input, but a cycle that finds the sum at or above `C` only takes `C` back. The
output is high between the threshold and the modulus, so it rises once for
each modulus that the inputs add up to.
-/

namespace Clocked.Accumulator

structure Cell where
  sum : Nat
  out : Bool

def step (C H : Nat) (s : Cell) (u : Nat) : Cell where
  sum := if C ≤ s.sum then s.sum - C else s.sum + u
  out := if H ≤ s.sum ∧ s.sum < C then true else if C ≤ s.sum then false else s.out

def run (C H : Nat) (u : Nat → Nat) : Nat → Cell := trace (step C H) ⟨0, false⟩ u

/-- How often the modulus was taken back in the first `i` cycles. -/
def wraps (C H : Nat) (u : Nat → Nat) (i : Nat) : Nat :=
  ∑ k ∈ Finset.range i, (decide (C ≤ (run C H u k).sum)).toNat

def rises (C H : Nat) (u : Nat → Nat) (i : Nat) : Nat :=
  edges (fun k => (run C H u k).out) (fun _ => true) 1 (i + 1)

variable {C H : Nat} {u : Nat → Nat}

theorem wraps_succ (i : Nat) :
    wraps C H u (i + 1) = wraps C H u i + (decide (C ≤ (run C H u i).sum)).toNat :=
  Finset.sum_range_succ _ _

theorem run_succ (i : Nat) : run C H u (i + 1) = step C H (run C H u i) (u i) := rfl

theorem sum_add_wraps (i : Nat) :
    (run C H u i).sum + C * wraps C H u i +
        ∑ k ∈ Finset.range i, (if C ≤ (run C H u k).sum then u k else 0) =
      ∑ k ∈ Finset.range i, u k := by
  induction i with
  | zero => simp [run, wraps]
  | succ i ih =>
      rw [Finset.sum_range_succ, Finset.sum_range_succ, ← ih, wraps_succ, run_succ]
      by_cases h : C ≤ (run C H u i).sum
      · simp only [step, h, if_true, decide_true, Bool.toNat_true, Nat.mul_add, Nat.mul_one]
        omega
      · simp only [step, h, if_false, decide_false, Bool.toNat_false, Nat.add_zero]
        omega

theorem le_sum_of_rose {i : Nat}
    (h : rose (fun k => (run C H u k).out) (i + 1) = true) : H ≤ (run C H u i).sum := by
  by_contra hlow
  simp only [rose, run_succ, step, hlow, false_and, if_false, Bool.and_eq_true,
    Bool.not_eq_true'] at h
  split at h <;> simp_all

theorem low_out (hC : ∀ k, u k + H ≤ C) (i : Nat)
    (h : (run C H u i).sum < H) : (run C H u i).out = false := by
  induction i with
  | zero => rfl
  | succ i ih =>
      have hi := hC i
      rw [run_succ] at h ⊢
      simp only [step] at h ⊢
      by_cases hw : C ≤ (run C H u i).sum
      · rw [if_neg (by omega), if_pos hw]
      · simp only [hw, if_false] at h ⊢
        rw [if_neg (by omega)]
        exact ih (by omega)

/-- Two input rates: `a` for the first `m` cycles, then `d` up to cycle `n`.
Until the first part reaches the modulus the sum only grows. -/
theorem sum_low_rate {a m : Nat} (hu : ∀ k < m, u k = a) (i : Nat) (hi : i ≤ m)
    (ha : a * i < C) : (run C H u i).sum = a * i := by
  induction i with
  | zero => simp [run]
  | succ i ih =>
      have hbound : a * i ≤ a * (i + 1) := Nat.mul_le_mul_left a (by omega)
      rw [run_succ]
      simp only [step]
      rw [ih (by omega) (by omega), if_neg (by omega), hu i (by omega)]
      ring

theorem rises_low_rate {a m : Nat} (hHC : H ≤ C) (hu : ∀ k < m, u k = a)
    (ha : a * m < H) (i : Nat) (hi : i ≤ m + 1) : rises C H u i = 0 := by
  apply edges_eq_zero
  intro t ht hti hr
  obtain ⟨k, rfl⟩ : ∃ k, t = k + 1 := ⟨t - 1, by omega⟩
  have hsum := le_sum_of_rose hr
  have hbound : a * k ≤ a * m := Nat.mul_le_mul_left a (by omega)
  rw [sum_low_rate hu k (by omega) (by omega)] at hsum
  omega

theorem skipped_two_rate {a d m n : Nat} (hHC : H ≤ C) (hu : ∀ k < m, u k = a)
    (hd : ∀ k, m ≤ k → k < n → u k = d) (ha : a * m < H) :
    ∑ k ∈ Finset.range n, (if C ≤ (run C H u k).sum then u k else 0) =
      d * wraps C H u n := by
  rw [wraps, Finset.mul_sum]
  apply Finset.sum_congr rfl
  intro k hk
  rw [Finset.mem_range] at hk
  by_cases hw : C ≤ (run C H u k).sum
  · have hmk : m ≤ k := by
      by_contra hlt
      have hbound : a * k ≤ a * m := Nat.mul_le_mul_left a (by omega)
      rw [sum_low_rate hu k (by omega) (by omega)] at hw
      omega
    simp [hw, hd k hmk hk]
  · simp [hw]

theorem sum_two_rate {a d m n : Nat} (hmn : m ≤ n) (hu : ∀ k < m, u k = a)
    (hd : ∀ k, m ≤ k → k < n → u k = d) :
    ∑ k ∈ Finset.range n, u k = a * m + d * (n - m) := by
  rw [← Finset.sum_range_add_sum_Ico _ hmn,
    Finset.sum_congr rfl fun k hk => hu k (Finset.mem_range.mp hk),
    Finset.sum_congr rfl fun k hk =>
      hd k (Finset.mem_Ico.mp hk).1 (Finset.mem_Ico.mp hk).2]
  simp [Nat.mul_comm]

section Bounded

variable (hpos : 0 < H) (hH : ∀ k, u k ≤ H) (hC : ∀ k, u k + H ≤ C)
include hpos hH hC

theorem sum_lt (i : Nat) : (run C H u i).sum < C + H := by
  induction i with
  | zero => simp only [run, trace_zero]; omega
  | succ i ih =>
      have hi := hH i
      have hc := hC i
      simp only [run_succ, step]
      split <;> omega

theorem out_of_wrap (i : Nat) (h : C ≤ (run C H u i).sum) : (run C H u i).out = true := by
  cases i with
  | zero => have := hC 0; simp only [run, trace_zero] at h; omega
  | succ i =>
      have hi := hC i
      have hlt := sum_lt hpos hH hC i
      rw [run_succ] at h ⊢
      simp only [step] at h ⊢
      by_cases hw : C ≤ (run C H u i).sum
      · simp only [hw, if_true] at h; omega
      · simp only [hw, if_false] at h
        rw [if_pos ⟨by omega, by omega⟩]

theorem rises_eq (i : Nat) :
    rises C H u i = wraps C H u i + ((run C H u i).out).toNat := by
  induction i with
  | zero => simp [rises, edges, wraps, run]
  | succ i ih =>
      have hstep : rises C H u (i + 1) = rises C H u i +
          (rose (fun k => (run C H u k).out) (i + 1) && true).toNat :=
        edges_succ _ _ (by omega)
      rw [hstep, ih, wraps_succ]
      simp only [rose, run_succ, step, Bool.and_true]
      by_cases hw : C ≤ (run C H u i).sum
      · have hout := out_of_wrap hpos hH hC i hw
        simp [hw, hout]
      · by_cases hh : H ≤ (run C H u i).sum
        · cases (run C H u i).out <;> simp [hw, hh]
        · cases (run C H u i).out <;> simp [hw, hh]

theorem rises_succ (i : Nat) :
    rises C H u (i + 1) =
      wraps C H u i + (decide (H ≤ (run C H u i).sum)).toNat := by
  have hc := hC i
  rw [rises_eq hpos hH hC, wraps_succ, run_succ]
  simp only [step]
  by_cases hw : C ≤ (run C H u i).sum
  · have hh : H ≤ (run C H u i).sum := by omega
    have hn : ¬ (run C H u i).sum < C := by omega
    simp [hw, hh, hn]
  · by_cases hh : H ≤ (run C H u i).sum
    · have hn : (run C H u i).sum < C := by omega
      simp [hw, hh, hn]
    · have hout := low_out hC i (by omega)
      simp [hw, hh, hout]

section TwoRates

variable {a d m n : Nat} (hmn : m ≤ n) (hn : n ≤ C)
  (hu : ∀ k < m, u k = a) (hd : ∀ k, m ≤ k → k < n → u k = d) (ha : a * m < H)
include hmn hu hd ha

omit hpos hH in
theorem level_two_rate :
    (run C H u n).sum + (C + d) * wraps C H u n = a * m + d * (n - m) := by
  have hhc := hC 0
  rw [← sum_two_rate hmn hu hd, ← sum_add_wraps (C := C) (H := H),
    skipped_two_rate (by omega) hu hd ha]
  ring

include hn

omit hpos hH in
theorem wraps_two_rate_le : wraps C H u n ≤ d := by
  have hlevel := level_two_rate hC hmn hu hd ha
  have hhc := hC 0
  by_contra hlt
  have hmore : (C + d) * (d + 1) ≤ (C + d) * wraps C H u n :=
    Nat.mul_le_mul_left _ (by omega)
  have hde : d * (n - m) ≤ d * C := Nat.mul_le_mul_left _ (by omega)
  have hdd := Nat.zero_le (d * d)
  linarith

/-- A window of at most `C` cycles never gives more than `d` edges. -/
theorem rises_two_rate_le : rises C H u (n + 1) ≤ d := by
  have hlevel := level_two_rate hC hmn hu hd ha
  have hwraps := wraps_two_rate_le hC hmn hn hu hd ha
  have hhc := hC 0
  rw [rises_succ hpos hH hC]
  cases Nat.lt_or_eq_of_le hwraps with
  | inl hB =>
      have := Bool.toNat_le (decide (H ≤ (run C H u n).sum))
      omega
  | inr hB =>
      have hde : d * (n - m) ≤ d * C := Nat.mul_le_mul_left _ (by omega)
      have hS : ¬ H ≤ (run C H u n).sum := by
        rw [hB] at hlevel
        have hdd := Nat.zero_le (d * d)
        linarith
      simp [hS, hB]

/-- It gives all `d` if and only if the last of them still fits behind the `m`
foreign cycles and the wraps that the others take. -/
theorem rises_two_rate :
    rises C H u (n + 1) = d ↔ d * (C + m + d) + H ≤ a * m + d * (n + 1) + C := by
  have hlevel := level_two_rate hC hmn hu hd ha
  have hwraps := wraps_two_rate_le hC hmn hn hu hd ha
  have hsum := sum_lt hpos hH hC n
  have hhc := hC 0
  rw [rises_succ hpos hH hC]
  generalize wraps C H u n = B at hlevel hwraps ⊢
  generalize (run C H u n).sum = S at hlevel hsum ⊢
  obtain ⟨e, rfl⟩ : ∃ e, n = m + e := ⟨n - m, by omega⟩
  rw [Nat.add_sub_cancel_left] at hlevel
  have hde : d * (m + e) ≤ d * C := Nat.mul_le_mul_left _ hn
  rcases Nat.lt_or_eq_of_le hwraps with hB | rfl
  · obtain ⟨f, rfl⟩ : ∃ f, d = B + 1 + f := ⟨d - (B + 1), by omega⟩
    by_cases hS : H ≤ S
    · simp only [hS, decide_true, Bool.toNat_true]
      constructor
      · intro hf
        obtain rfl : f = 0 := by omega
        linarith
      · intro hfit
        by_contra hf
        obtain ⟨g, rfl⟩ : ∃ g, f = g + 1 := ⟨f - 1, by omega⟩
        have hC0 := Nat.zero_le (C * g)
        have hd0 := Nat.zero_le ((B + 1 + (g + 1)) * (g + 1))
        linarith
    · simp only [hS, decide_false, Bool.toNat_false]
      constructor
      · intro hf
        omega
      · intro hfit
        have hC0 := Nat.zero_le (C * f)
        have hd0 := Nat.zero_le ((B + 1 + f) * f)
        linarith
  · have hS : ¬ H ≤ S := by
      have hdd := Nat.zero_le (B * (B + m))
      linarith
    simp only [hS, decide_false, Bool.toNat_false, Nat.add_zero, true_iff]
    linarith

end TwoRates

end Bounded

end Clocked.Accumulator
