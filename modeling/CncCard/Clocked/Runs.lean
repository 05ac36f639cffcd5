import CncCard.Clocked.Hold
import Mathlib.Data.Finset.Card

/-!
Maximal runs of a sampled signal, and how many of them have come to a length. A run has come
to its length in the one cycle in which the streak of the signal is that long.
-/

namespace Clocked

/-- A run of high samples begins in cycle `a` and has lasted for `n` of them. -/
structure RunFrom (x : Nat → Bool) (a n : Nat) : Prop where
  begins : ∀ k, k + 1 = a → x k = false
  high : ∀ k, a ≤ k → k < a + n → x k = true

instance (x : Nat → Bool) (a n : Nat) : Decidable (RunFrom x a n) :=
  decidable_of_iff ((∀ k < a, k + 1 = a → x k = false) ∧ ∀ k < a + n, a ≤ k → x k = true)
    ⟨fun h => ⟨fun k hk => h.1 k (by omega) hk, fun k hak hk => h.2 k hk hak⟩,
      fun h => ⟨fun k _ hk => h.begins k hk, fun k hk hak => h.high k hak hk⟩⟩

variable {x : Nat → Bool}

theorem streak_succ_high {t : Nat} (h : x t = true) : streak x (t + 1) = streak x t + 1 :=
  if_pos h

theorem streak_succ_low {t : Nat} (h : x t = false) : streak x (t + 1) = 0 := by
  rw [streak, h]
  rfl

theorem RunFrom.mono {a n m : Nat} (h : RunFrom x a n) (hmn : m ≤ n) : RunFrom x a m :=
  ⟨h.begins, fun k hak hk => h.high k hak (by omega)⟩

theorem RunFrom.streak_eq {a n : Nat} (h : RunFrom x a n) : streak x (a + n) = n := by
  induction n with
  | zero =>
      cases a with
      | zero => rfl
      | succ a => exact streak_succ_low (h.begins a rfl)
  | succ n ih =>
      rw [← Nat.add_assoc, streak_succ_high (h.high (a + n) (by omega) (by omega)),
        ih (h.mono (Nat.le_succ n))]

theorem exists_runFrom (x : Nat → Bool) (t : Nat) :
    ∃ a, a + streak x t = t ∧ RunFrom x a (streak x t) := by
  induction t with
  | zero => exact ⟨0, rfl, fun k hk => by omega, fun k _ hk => by simp [streak] at hk⟩
  | succ t ih =>
      cases hx : x t with
      | false =>
          rw [streak_succ_low hx]
          refine ⟨t + 1, rfl, fun k hk => ?_, fun k _ _ => by omega⟩
          rw [Nat.succ.inj hk, hx]
      | true =>
          obtain ⟨a, hat, hrun⟩ := ih
          rw [streak_succ_high hx]
          refine ⟨a, by omega, hrun.begins, fun k hak hk => ?_⟩
          cases Nat.lt_or_eq_of_le (show k ≤ t by omega) with
          | inl hlt => exact hrun.high k hak (by omega)
          | inr heq => rw [heq, hx]

/-- The streak is the length of the run under way. -/
theorem streak_eq_iff {n t : Nat} : streak x t = n ↔ ∃ a, a + n = t ∧ RunFrom x a n := by
  constructor
  · rintro rfl
    exact exists_runFrom x t
  · rintro ⟨a, rfl, hrun⟩
    exact hrun.streak_eq

/-- The maximal runs that have lasted for `n` samples by cycle `t`. -/
def longRuns (x : Nat → Bool) (n t : Nat) : Nat :=
  ((Finset.range (t + 1)).filter fun a => a + n ≤ t ∧ RunFrom x a n).card

theorem longRuns_zero {n : Nat} (hn : 0 < n) : longRuns x n 0 = 0 := by
  rw [longRuns, Finset.card_eq_zero, Finset.filter_eq_empty_iff]
  rintro a - ⟨hle, -⟩
  omega

/-- A run is counted in the cycle in which it comes to the length. -/
theorem longRuns_succ (n t : Nat) :
    longRuns x n (t + 1) = longRuns x n t + if streak x (t + 1) = n then 1 else 0 := by
  by_cases hreached : streak x (t + 1) = n
  · obtain ⟨a, hat, hrun⟩ := streak_eq_iff.mp hreached
    have hnew : (Finset.range (t + 1 + 1)).filter (fun b => b + n ≤ t + 1 ∧ RunFrom x b n) =
        insert a ((Finset.range (t + 1)).filter fun b => b + n ≤ t ∧ RunFrom x b n) := by
      ext b
      simp only [Finset.mem_filter, Finset.mem_range, Finset.mem_insert]
      constructor
      · rintro ⟨-, hle, hb⟩
        by_cases heq : b = a
        · exact .inl heq
        · exact .inr ⟨by omega, by omega, hb⟩
      · rintro (rfl | ⟨-, hle, hb⟩)
        · exact ⟨by omega, by omega, hrun⟩
        · exact ⟨by omega, by omega, hb⟩
    have hfresh : a ∉ (Finset.range (t + 1)).filter fun b => b + n ≤ t ∧ RunFrom x b n := by
      simp only [Finset.mem_filter, not_and]
      intro _ hle
      omega
    rw [if_pos hreached, longRuns, hnew, Finset.card_insert_of_notMem hfresh, longRuns]
  · rw [if_neg hreached]
    refine (congrArg Finset.card (Finset.ext fun b => ?_)).trans (Nat.add_zero _).symm
    simp only [Finset.mem_filter, Finset.mem_range]
    constructor
    · rintro ⟨-, hle, hb⟩
      have hne : b + n ≠ t + 1 := fun heq => hreached (streak_eq_iff.mpr ⟨b, heq, hb⟩)
      exact ⟨by omega, by omega, hb⟩
    · rintro ⟨-, hle, hb⟩
      exact ⟨by omega, by omega, hb⟩

/-- A run is counted once, however long it lasts. -/
theorem RunFrom.longRuns_add {a m n : Nat} (h : RunFrom x a m) (hn : 0 < n) :
    longRuns x n (a + m) = longRuns x n a + if n ≤ m then 1 else 0 := by
  induction m with
  | zero => rw [if_neg (by omega)]; rfl
  | succ m ih =>
      rw [← Nat.add_assoc, longRuns_succ, ih (h.mono (Nat.le_succ m)), Nat.add_assoc a,
        h.streak_eq]
      split <;> split <;> split <;> omega

end Clocked
