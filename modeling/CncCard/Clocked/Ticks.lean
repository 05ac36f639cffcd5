import CncCard.Clocked.Trace
import Mathlib.Data.Nat.Nth

/-!
A part of a larger system that moves at the ticks only, whatever else goes on between them:
seen at its ticks it is a clocked run, and what the clocked run comes to the system comes to.
-/

namespace Clocked

universe u v
variable {σ : Type u} {ι : Type v}

/-- The part `x` of an endless run steps at each tick and rests otherwise. -/
structure Ticking (step : σ → ι → σ) (tick : Nat → Prop) (inp : Nat → ι) (x : Nat → σ) :
    Prop where
  rests : ∀ n, ¬ tick n → x (n + 1) = x n
  steps : ∀ n, tick n → x (n + 1) = step (x n) (inp n)
  recurs : ∀ n, ∃ m, n ≤ m ∧ tick m

namespace Ticking

variable {step : σ → ι → σ} {tick : Nat → Prop} {inp : Nat → ι} {x : Nat → σ}
  (h : Ticking step tick inp x)
include h

theorem infinite : (Set.ofPred tick).Infinite :=
  Set.infinite_of_forall_exists_gt fun n => by
    obtain ⟨m, hle, htick⟩ := h.recurs (n + 1)
    exact ⟨m, htick, hle⟩

variable [DecidablePred tick]

theorem eq_trace (n : Nat) :
    x n = trace step (x 0) (fun k => inp (Nat.nth tick k)) (Nat.count tick n) := by
  induction n with
  | zero => rfl
  | succ n ih =>
      rw [Nat.count_succ]
      split
      · next htick => rw [trace_succ, ← ih, Nat.nth_count htick, h.steps n htick]
      · next htick => rw [h.rests n htick, ih, Nat.add_zero]

theorem trace_eq (k : Nat) :
    trace step (x 0) (fun k => inp (Nat.nth tick k)) k = x (Nat.nth tick k) := by
  rw [h.eq_trace (Nat.nth tick k), Nat.count_nth_of_infinite h.infinite]

/-- What recurs at the ticks recurs in the clocked run. -/
theorem recurs_trace {P : ι → Prop} (hrecurs : ∀ n, ∃ m, n ≤ m ∧ tick m ∧ P (inp m)) (u : Nat) :
    ∃ a, u ≤ a ∧ P (inp (Nat.nth tick a)) := by
  obtain ⟨m, hle, htick, hm⟩ := hrecurs (Nat.nth tick u)
  refine ⟨Nat.count tick m, ?_, ?_⟩
  · rw [← Nat.count_nth_of_infinite h.infinite u]
    exact Nat.count_monotone tick hle
  · rw [Nat.nth_count htick]
    exact hm

theorem forall_trace {P : σ → Prop} {n : Nat} (hall : ∀ m, n ≤ m → P (x m)) (k : Nat)
    (hk : Nat.count tick n ≤ k) :
    P (trace step (x 0) (fun k => inp (Nat.nth tick k)) k) := by
  rw [h.trace_eq]
  exact hall _ ((Nat.count_le_iff_le_nth h.infinite).mp hk)

theorem eventually_of_trace {P : σ → Prop} {n u : Nat} (hu : Nat.count tick n ≤ u)
    (hall : ∀ k, u ≤ k → P (trace step (x 0) (fun k => inp (Nat.nth tick k)) k)) :
    ∃ m, n ≤ m ∧ ∀ j, m ≤ j → P (x j) := by
  refine ⟨Nat.nth tick u, (Nat.count_le_iff_le_nth h.infinite).mp hu, fun j hj => ?_⟩
  rw [h.eq_trace j]
  refine hall _ ?_
  rw [← Nat.count_nth_of_infinite h.infinite u]
  exact Nat.count_monotone tick hj

end Ticking

end Clocked
