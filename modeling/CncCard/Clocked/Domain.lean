import CncCard.Clocked.Trace
import Mathlib.Data.Nat.Nth

/-!
Machines on clocks of their own. Over the instants of a common time a machine steps only
where its clock has an edge; counted in its own edges it is a plain synchronous machine that
reads what those edges sample.
-/

namespace Clocked

universe u v
variable {σ : Type u} {ι : Type v}

/-- One instant of a machine, with or without an edge of its clock. -/
def gated (step : σ → ι → σ) (s : σ) (i : Bool × ι) : σ :=
  if i.1 then step s i.2 else s

/-- How many edges there have been before the instant. -/
def ticks (edge : Nat → Bool) (n : Nat) : Nat := Nat.count (fun k => edge k = true) n

/-- What a signal shows at each edge. -/
noncomputable def sampled (edge : Nat → Bool) (x : Nat → ι) (m : Nat) : ι :=
  x (Nat.nth (fun k => edge k = true) m)

variable {edge : Nat → Bool}

theorem ticks_edge {n : Nat} (h : edge n = true) : ticks edge (n + 1) = ticks edge n + 1 :=
  Nat.count_succ_eq_succ_count_iff.mpr h

theorem ticks_quiet {n : Nat} (h : edge n = false) : ticks edge (n + 1) = ticks edge n :=
  Nat.count_succ_eq_count_iff.mpr (by simp [h])

theorem sampled_ticks (x : Nat → ι) {n : Nat} (h : edge n = true) :
    sampled edge x (ticks edge n) = x n :=
  congrArg x (Nat.nth_count (p := fun k => edge k = true) h)

/-- Counted in its own edges, a gated machine is the machine itself. -/
theorem trace_gated (step : σ → ι → σ) (s₀ : σ) (edge : Nat → Bool) (x : Nat → ι) (n : Nat) :
    trace (gated step) s₀ (fun k => (edge k, x k)) n =
      trace step s₀ (sampled edge x) (ticks edge n) := by
  induction n with
  | zero => rfl
  | succ n ih =>
      rw [trace_succ, ih, gated]
      cases h : edge n with
      | false => rw [ticks_quiet h]; rfl
      | true => rw [ticks_edge h, trace_succ, sampled_ticks x h]; rfl

section Periodic

variable (p : Nat)

/-- A clock of period `p`, whose edges are the multiples of `p`. -/
def everyNth (k : Nat) : Bool := k % p == 0

theorem ticks_everyNth (n : Nat) : ticks (everyNth p) (n + 1) = n / p + 1 := by
  induction n with
  | zero => simp [ticks, everyNth, Nat.count_succ]
  | succ n ih =>
      rw [Nat.succ_div]
      cases h : everyNth p (n + 1) with
      | false =>
          have hnot : ¬ p ∣ n + 1 := by simpa [everyNth, Nat.dvd_iff_mod_eq_zero] using h
          rw [ticks_quiet h, ih, if_neg hnot, Nat.add_zero]
      | true =>
          have hdvd : p ∣ n + 1 := by simpa [everyNth, Nat.dvd_iff_mod_eq_zero] using h
          rw [ticks_edge h, ih, if_pos hdvd]

variable {p}

theorem everyNth_mul (m : Nat) : everyNth p (p * m) = true := by
  simp [everyNth]

theorem ticks_everyNth_mul (hp : 0 < p) (m : Nat) : ticks (everyNth p) (p * m) = m := by
  have hafter := ticks_everyNth p (p * m)
  rw [ticks_edge (everyNth_mul m), Nat.mul_div_cancel_left m hp] at hafter
  exact Nat.succ.inj hafter

theorem sampled_everyNth (hp : 0 < p) (x : Nat → ι) (m : Nat) :
    sampled (everyNth p) x m = x (p * m) := by
  have h := sampled_ticks x (everyNth_mul (p := p) m)
  rwa [ticks_everyNth_mul hp] at h

end Periodic

end Clocked
