import Mathlib.Data.Nat.Init
import Mathlib.Order.Basic

/-!
Sampled signals over stretches of cycles: a level that has been held, and a latch that
one signal sets and that stays up while another allows it.
-/

namespace Clocked

/-- The signal has been high in each of the last `n` cycles before `t`. -/
def Held (x : Nat → Bool) (n t : Nat) : Prop :=
  n ≤ t ∧ ∀ k, t ≤ k + n → k < t → x k = true

/-- For how many cycles the signal has been high without a break. -/
def streak (x : Nat → Bool) : Nat → Nat
  | 0 => 0
  | t + 1 => if x t then streak x t + 1 else 0

variable {x : Nat → Bool}

theorem held_succ (n t : Nat) : Held x (n + 1) (t + 1) ↔ x t = true ∧ Held x n t := by
  constructor
  · intro h
    exact ⟨h.2 t (by omega) (Nat.lt_succ_self t), Nat.le_of_succ_le_succ h.1,
      fun k hk hkt => h.2 k (by omega) (by omega)⟩
  · intro h
    refine ⟨Nat.succ_le_succ h.2.1, fun k hk hkt => ?_⟩
    cases Nat.lt_or_eq_of_le (Nat.le_of_lt_succ hkt) with
    | inl hlt => exact h.2.2 k (by omega) hlt
    | inr heq => rw [heq, h.1]

theorem held_iff (n t : Nat) : Held x n t ↔ n ≤ streak x t := by
  induction t generalizing n with
  | zero => simp [Held, streak]
  | succ t ih =>
      cases n with
      | zero => simp only [Held, Nat.zero_le, iff_true, true_and]; omega
      | succ n =>
          rw [held_succ, ih, streak]
          cases x t with
          | false => simp
          | true => simp

/-- A level that stays keeps being held. -/
theorem Held.extend {n t u : Nat} (h : Held x n t) (htu : t ≤ u)
    (hstay : ∀ k, t ≤ k → k < u → x k = true) : Held x n u := by
  refine ⟨Nat.le_trans h.1 htu, fun k hk hku => ?_⟩
  cases Nat.lt_or_ge k t with
  | inl hkt => exact h.2 k (by omega) hkt
  | inr htk => exact hstay k htk hku

/-- A bit that is set, kept or cleared in each cycle is up if and only if it has been kept
ever since it was last set. -/
theorem since_iff {q set keep : Nat → Bool} (hstart : q 0 = false)
    (hstep : ∀ t, q (t + 1) = (set t || (keep t && q t))) (t : Nat) :
    q t = true ↔ ∃ a < t, set a = true ∧ ∀ k, a < k → k < t → keep k = true := by
  induction t with
  | zero => simp [hstart]
  | succ t ih =>
      rw [hstep, Bool.or_eq_true, Bool.and_eq_true, ih]
      constructor
      · rintro (hset | ⟨hkeep, a, hat, hset, hall⟩)
        · exact ⟨t, Nat.lt_succ_self t, hset, fun k hk hkt => by omega⟩
        · refine ⟨a, Nat.lt_succ_of_lt hat, hset, fun k hk hkt => ?_⟩
          cases Nat.lt_or_eq_of_le (Nat.le_of_lt_succ hkt) with
          | inl hlt => exact hall k hk hlt
          | inr heq => rw [heq, hkeep]
      · rintro ⟨a, hat, hset, hall⟩
        cases Nat.lt_or_eq_of_le (Nat.le_of_lt_succ hat) with
        | inl hlt =>
            exact .inr ⟨hall t hlt (Nat.lt_succ_self t), a, hlt, hset,
              fun k hk hkt => hall k hk (Nat.lt_succ_of_lt hkt)⟩
        | inr heq => exact .inl (heq ▸ hset)

/-- A latch is up if and only if it has been set and was allowed to stay ever since. -/
theorem latch_iff {q set keep : Nat → Bool} (hstart : q 0 = false)
    (hstep : ∀ t, q (t + 1) = (keep t && (set t || q t))) (t : Nat) :
    q t = true ↔ ∃ a < t, set a = true ∧ ∀ k, a ≤ k → k < t → keep k = true := by
  have hsince (t : Nat) : q (t + 1) = ((keep t && set t) || (keep t && q t)) := by
    rw [hstep, Bool.and_or_distrib_left]
  rw [since_iff hstart hsince]
  refine exists_congr fun a => and_congr_right fun hat => ?_
  rw [Bool.and_eq_true]
  constructor
  · rintro ⟨⟨hkeep, hset⟩, hall⟩
    refine ⟨hset, fun k hk hkt => ?_⟩
    cases Nat.lt_or_eq_of_le hk with
    | inl hlt => exact hall k hlt hkt
    | inr heq => rw [← heq, hkeep]
  · rintro ⟨hset, hall⟩
    exact ⟨⟨hall a (Nat.le_refl a) hat, hset⟩, fun k hk hkt => hall k (Nat.le_of_lt hk) hkt⟩

end Clocked
