import Mathlib.Data.Int.Init
import Mathlib.Data.Nat.Count

/-!
Two channels in quadrature: one of them changes at a time, and which of the two, from the
levels of both, is the direction of the transition. A transition belongs to the cycle
before the new levels.
-/

namespace Clocked

/-- The levels of the two channels in each cycle, both low in the first one. -/
structure Quadrature where
  a : Nat → Bool
  b : Nat → Bool
  low_a : a 0 = false
  low_b : b 0 = false
  single : ∀ t, a (t + 1) = a t ∨ b (t + 1) = b t

namespace Quadrature

variable (q : Quadrature)

/-- The channels differ. -/
def odd (t : Nat) : Bool := q.a t ^^ q.b t

def moved (t : Nat) : Bool := q.odd (t + 1) ^^ q.odd t

def forward (t : Nat) : Bool := q.a (t + 1) == !q.b t && q.b (t + 1) == q.a t

def backward (t : Nat) : Bool := q.a (t + 1) == q.b t && q.b (t + 1) == !q.a t

/-- The transitions before cycle `n`, whatever their direction. -/
def travelled (n : Nat) : Nat := Nat.count (fun t => q.moved t = true) n

/-- The forward transitions before cycle `n` less the backward ones. -/
def net (n : Nat) : Int :=
  Nat.count (fun t => q.forward t = true) n - Nat.count (fun t => q.backward t = true) n

/-- There is a transition before cycle `n`, and the last one is backward. -/
def lastBackward : Nat → Bool
  | 0 => false
  | t + 1 => if q.moved t then q.backward t else lastBackward t

/-- The transitions before cycle `n` whose predecessor was backward, or was not. -/
def after (back : Bool) (n : Nat) : Nat :=
  Nat.count (fun t => (q.moved t && q.lastBackward t == back) = true) n

/-- A cycle has no transition, a forward one or a backward one. -/
theorem move_cases (t : Nat) :
    (q.moved t = false ∧ q.forward t = false ∧ q.backward t = false) ∨
    (q.moved t = true ∧ q.forward t = true ∧ q.backward t = false) ∨
    (q.moved t = true ∧ q.forward t = false ∧ q.backward t = true) := by
  simp only [moved, odd, forward, backward]
  cases q.single t with
  | inl ha =>
      rw [ha]
      cases q.a t <;> cases q.b t <;> cases q.b (t + 1) <;> simp
  | inr hb =>
      rw [hb]
      cases q.b t <;> cases q.a t <;> cases q.a (t + 1) <;> simp

theorem same_of_not_moved {t : Nat} (h : q.moved t = false) :
    q.a (t + 1) = q.a t ∧ q.b (t + 1) = q.b t := by
  simp only [moved, odd] at h
  cases q.single t with
  | inl ha =>
      refine ⟨ha, ?_⟩
      rw [ha] at h
      revert h
      cases q.a t <;> cases q.b t <;> cases q.b (t + 1) <;> simp
  | inr hb =>
      refine ⟨?_, hb⟩
      rw [hb] at h
      revert h
      cases q.b t <;> cases q.a t <;> cases q.a (t + 1) <;> simp

theorem travelled_succ (n : Nat) : q.travelled (n + 1) = q.travelled n + (q.moved n).toNat := by
  rw [travelled, Nat.count_succ, ← travelled]
  cases q.moved n <;> rfl

theorem net_succ (n : Nat) :
    q.net (n + 1) = q.net n + (q.forward n).toNat - (q.backward n).toNat := by
  rw [net, net, Nat.count_succ, Nat.count_succ]
  cases q.forward n <;> cases q.backward n <;> simp <;> omega

theorem after_succ (back : Bool) (n : Nat) :
    q.after back (n + 1) = q.after back n + (q.moved n && q.lastBackward n == back).toNat := by
  rw [after, Nat.count_succ, ← after]
  cases q.moved n && q.lastBackward n == back <;> rfl

/-- Without a transition the distance stays. -/
theorem travelled_of_still {m n : Nat} (hmn : m ≤ n)
    (hstill : ∀ t, m ≤ t → t < n → q.moved t = false) : q.travelled n = q.travelled m := by
  induction n, hmn using Nat.le_induction with
  | base => rfl
  | succ n hmn ih =>
      rw [travelled_succ, hstill n hmn (Nat.lt_succ_self n),
        ih fun t hmt htn => hstill t hmt (Nat.lt_succ_of_lt htn)]
      rfl

theorem net_of_still {m n : Nat} (hmn : m ≤ n)
    (hstill : ∀ t, m ≤ t → t < n → q.moved t = false) : q.net n = q.net m := by
  induction n, hmn using Nat.le_induction with
  | base => rfl
  | succ n hmn ih =>
      have hcases := q.move_cases n
      rw [hstill n hmn (Nat.lt_succ_self n)] at hcases
      simp only [Bool.false_eq_true, false_and, or_false, true_and] at hcases
      rw [net_succ, hcases.1, hcases.2, ih fun t hmt htn => hstill t hmt (Nat.lt_succ_of_lt htn)]
      simp

/-- Each transition, counted in the direction of its predecessor, is counted in its own
direction by its successor; only the first and the last one are left over. -/
theorem after_sub_after (n : Nat) :
    (q.after false n : Int) - q.after true n = q.net n + if q.lastBackward n then 2 else 0 := by
  induction n with
  | zero => rfl
  | succ n ih =>
      rw [after_succ, after_succ, net_succ, lastBackward]
      obtain ⟨hm, hf, hb⟩ | ⟨hm, hf, hb⟩ | ⟨hm, hf, hb⟩ := q.move_cases n
      · simp only [hm, hf, hb, Bool.false_and, Bool.toNat_false, Bool.false_eq_true, if_false]
        omega
      · cases hl : q.lastBackward n with
        | false => simp [hm, hf, hb, hl] at ih ⊢; omega
        | true => simp [hm, hf, hb, hl] at ih ⊢; omega
      · cases hl : q.lastBackward n with
        | false => simp [hm, hf, hb, hl] at ih ⊢; omega
        | true => simp [hm, hf, hb, hl] at ih ⊢; omega

section Delay

/-- The channels seen `d` cycles later, low before. -/
def delay (d : Nat) : Quadrature where
  a t := decide (d ≤ t) && q.a (t - d)
  b t := decide (d ≤ t) && q.b (t - d)
  low_a := by
    rw [Nat.zero_sub, q.low_a, Bool.and_false]
  low_b := by
    rw [Nat.zero_sub, q.low_b, Bool.and_false]
  single t := by
    cases Nat.lt_or_ge t d with
    | inl hlt =>
        left
        rw [decide_eq_false (Nat.not_le_of_lt hlt), Bool.false_and]
        by_cases hnext : d ≤ t + 1
        · obtain rfl : d = t + 1 := by omega
          rw [Nat.sub_self, q.low_a, Bool.and_false]
        · rw [decide_eq_false hnext, Bool.false_and]
    | inr hge =>
        have hnext : t + 1 - d = t - d + 1 := by omega
        rw [decide_eq_true hge, decide_eq_true (Nat.le_succ_of_le hge), hnext]
        exact q.single (t - d)

variable (d : Nat)

theorem delay_odd (t : Nat) : (q.delay d).odd t = (decide (d ≤ t) && q.odd (t - d)) := by
  simp only [odd, delay]
  cases decide (d ≤ t) <;> rfl

theorem delay_moved_late (t : Nat) : (q.delay d).moved (d + t) = q.moved t := by
  have hnext : d + t + 1 - d = t + 1 := by omega
  have hlate : d ≤ d + t + 1 := by omega
  simp only [moved, delay_odd, hnext, Nat.add_sub_cancel_left,
    decide_eq_true (Nat.le_add_right d t), decide_eq_true hlate, Bool.true_and]

theorem delay_moved_early {t : Nat} (h : t < d) : (q.delay d).moved t = false := by
  have hodd (k : Nat) (hk : k ≤ d) : (q.delay d).odd k = false := by
    rw [delay_odd]
    cases Nat.lt_or_eq_of_le hk with
    | inl hlt => rw [decide_eq_false (Nat.not_le_of_lt hlt), Bool.false_and]
    | inr heq => rw [heq, Nat.sub_self, odd, q.low_a, q.low_b, Bool.xor_self, Bool.and_false]
  rw [moved, hodd t (Nat.le_of_lt h), hodd (t + 1) h, Bool.xor_self]

theorem delay_forward_late (t : Nat) : (q.delay d).forward (d + t) = q.forward t := by
  have hnext : d + t + 1 - d = t + 1 := by omega
  have hlate : d ≤ d + t + 1 := by omega
  simp only [forward, delay, hnext, Nat.add_sub_cancel_left,
    decide_eq_true (Nat.le_add_right d t), decide_eq_true hlate, Bool.true_and]

theorem delay_backward_late (t : Nat) : (q.delay d).backward (d + t) = q.backward t := by
  have hnext : d + t + 1 - d = t + 1 := by omega
  have hlate : d ≤ d + t + 1 := by omega
  simp only [backward, delay, hnext, Nat.add_sub_cancel_left,
    decide_eq_true (Nat.le_add_right d t), decide_eq_true hlate, Bool.true_and]

/-- Behind the delay nothing has been seen yet in the first cycles, and everything later. -/
theorem delay_counts (n : Nat) :
    (q.delay d).travelled n = q.travelled (n - d) ∧ (q.delay d).net n = q.net (n - d) ∧
      (q.delay d).lastBackward n = q.lastBackward (n - d) := by
  induction n with
  | zero => simp [travelled, net, lastBackward]
  | succ n ih =>
      obtain ⟨htravelled, hnet, hlast⟩ := ih
      cases Nat.lt_or_ge n d with
      | inl hlt =>
          have hstill := q.delay_moved_early d hlt
          have hnone : n + 1 - d = n - d := by omega
          have hcases := (q.delay d).move_cases n
          simp only [hstill, true_and, Bool.false_eq_true, false_and, or_false] at hcases
          rw [travelled_succ, net_succ, lastBackward, hstill, hcases.1, hcases.2, htravelled, hnet,
            hlast, hnone]
          simp
      | inr hge =>
          obtain ⟨k, rfl⟩ := Nat.exists_eq_add_of_le hge
          have hnext : d + k + 1 - d = k + 1 := by omega
          rw [Nat.add_sub_cancel_left] at htravelled hnet hlast
          rw [travelled_succ, net_succ, lastBackward, delay_moved_late, delay_forward_late,
            delay_backward_late, htravelled, hnet, hlast, hnext, travelled_succ, net_succ,
            lastBackward]
          exact ⟨rfl, rfl, rfl⟩

end Delay

end Quadrature

/-- Transitions at least three cycles apart. -/
structure SpacedQuadrature extends Quadrature where
  spaced : ∀ s t, s < t → toQuadrature.moved s = true → toQuadrature.moved t = true → s + 3 ≤ t

end Clocked
