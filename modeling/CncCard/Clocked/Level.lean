import CncCard.Clocked.Fifo
import Mathlib.Algebra.BigOperators.Intervals
import Mathlib.Algebra.Order.BigOperators.Group.Finset

/-!
The level of a queue that is filled in some cycles and drained in others. How far it
rises is decided by the stretches of cycles: the level is what the worst stretch up to
now has brought more than it took.
-/

namespace Clocked

universe u
variable {α : Type u} {depth : Nat}

def during (p : Nat → Bool) (a b : Nat) : Nat := ∑ k ∈ Finset.Ico a b, (p k).toNat

/-- A drain that finds nothing is lost. -/
def level (filled drained : Nat → Bool) : Nat → Nat
  | 0 => 0
  | t + 1 => level filled drained t - (drained t).toNat + (filled t).toNat

theorem during_self (p : Nat → Bool) (a : Nat) : during p a a = 0 := by
  simp [during]

theorem during_succ (p : Nat → Bool) {a b : Nat} (h : a ≤ b) :
    during p a (b + 1) = during p a b + (p b).toNat :=
  Finset.sum_Ico_succ_top h _

theorem during_le_succ (p : Nat → Bool) (a b : Nat) : during p a b ≤ during p a (b + 1) :=
  Finset.sum_le_sum_of_subset (Finset.Ico_subset_Ico_right (Nat.le_succ b))

theorem during_congr {p p' : Nat → Bool} {a b : Nat} (h : ∀ t, a ≤ t → t < b → p t = p' t) :
    during p a b = during p' a b := by
  apply Finset.sum_congr rfl
  intro t ht
  rw [Finset.mem_Ico] at ht
  rw [h t ht.1 ht.2]

theorem during_always {p : Nat → Bool} {a b : Nat} (h : ∀ t, a ≤ t → t < b → p t = true) :
    during p a b = b - a := by
  rw [during_congr h, during, Finset.sum_const, Nat.card_Ico]
  exact Nat.mul_one _

/-- A signal that is up only behind another one is up no more often. -/
theorem during_behind_le {x y : Nat → Bool} (hstart : y 0 = false)
    (hstep : ∀ t, y (t + 1) = true → x t = true) (n : Nat) :
    during y 0 (n + 1) ≤ during x 0 n := by
  induction n with
  | zero => rw [during_succ y (Nat.le_refl 0), during_self, hstart]; exact Nat.zero_le _
  | succ n ih =>
      rw [during_succ y (Nat.zero_le _), during_succ x (Nat.zero_le n)]
      refine Nat.add_le_add ih ?_
      cases hup : y (n + 1) with
      | false => exact Nat.zero_le _
      | true => rw [hstep n hup]

variable (filled drained : Nat → Bool)

theorem during_le_level {a t : Nat} (h : a < t) :
    during filled a t ≤ level filled drained t + during drained (a + 1) t := by
  induction t, h using Nat.le_induction with
  | base =>
      rw [during_succ filled (Nat.le_refl a), during_self, level]
      omega
  | succ t h ih =>
      rw [during_succ filled (Nat.le_of_succ_le h), during_succ drained (a := a + 1) h, level]
      omega

theorem level_eq_during (t : Nat) : level filled drained t = 0 ∨
    ∃ a < t, level filled drained t + during drained (a + 1) t = during filled a t := by
  induction t with
  | zero => exact .inl rfl
  | succ t ih =>
      rw [level]
      by_cases hempty : level filled drained t - (drained t).toNat = 0
      · cases hfill : filled t with
        | false => exact .inl (by rw [hempty]; rfl)
        | true =>
            refine .inr ⟨t, Nat.lt_succ_self t, ?_⟩
            rw [hempty, during_self, during_succ filled (Nat.le_refl t), during_self, hfill,
              Nat.add_zero]
      · rcases ih with hzero | ⟨a, ha, hlevel⟩
        · omega
        · refine .inr ⟨a, Nat.lt_succ_of_lt ha, ?_⟩
          rw [during_succ filled (Nat.le_of_lt ha), during_succ drained (a := a + 1) ha]
          omega

/-- No fill finds the level at the depth if and only if no stretch brings more than the
depth above what is drained strictly inside it. -/
theorem level_lt_iff : (∀ t, filled t = true → level filled drained t < depth) ↔
    ∀ a t, a ≤ t → during filled a (t + 1) ≤ depth + during drained (a + 1) t := by
  constructor
  · intro hroom a t hat
    induction t, hat using Nat.le_induction with
    | base =>
        rw [during_succ filled (Nat.le_refl a), during_self]
        cases hfill : filled a with
        | false => simp
        | true =>
            have hlt := hroom a hfill
            rw [Bool.toNat_true]
            omega
    | succ t hat ih =>
        rw [during_succ filled (by omega : a ≤ t + 1)]
        cases hfill : filled (t + 1) with
        | false =>
            have hmore := during_le_succ drained (a + 1) t
            rw [Bool.toNat_false]
            omega
        | true =>
            have hlt := hroom (t + 1) hfill
            have hle := during_le_level filled drained (by omega : a < t + 1)
            rw [Bool.toNat_true]
            omega
  · intro hstretch t hfill
    rcases level_eq_during filled drained t with hzero | ⟨a, ha, hlevel⟩
    · have hone := hstretch t t (Nat.le_refl t)
      rw [during_succ filled (Nat.le_refl t), during_self, hfill, Bool.toNat_true] at hone
      have hnone : during drained (t + 1) t = 0 := by simp [during]
      omega
    · have hmore := hstretch a t (Nat.le_of_lt ha)
      rw [during_succ filled (Nat.le_of_lt ha), hfill, Bool.toNat_true] at hmore
      omega

namespace Fifo

theorem length_clock (f : Fifo α depth) (wrreq : Option α) (rdreq : Bool) :
    (f.clock wrreq rdreq).words.length =
      f.words.length - rdreq.toNat + (f.accepted wrreq).length := by
  cases rdreq <;> simp [clock]

section Run

variable (f : Nat → Fifo α depth) (wrreq : Nat → Option α) (rdreq : Nat → Bool)
  (hrun : ∀ t, f (t + 1) = (f t).clock (wrreq t) (rdreq t)) (hempty : (f 0).words = [])
include hrun hempty

theorem length_eq_level (t : Nat)
    (h : ∀ k < t, (wrreq k).isSome = true → (f k).words.length < depth) :
    (f t).words.length = level (fun k => (wrreq k).isSome) rdreq t := by
  induction t with
  | zero => rw [hempty]; rfl
  | succ t ih =>
      have hnow := h t (Nat.lt_succ_self t)
      rw [hrun, length_clock, ih fun k hk => h k (Nat.lt_succ_of_lt hk), level, accepted]
      cases hwr : wrreq t with
      | none => split <;> simp
      | some w =>
          rw [hwr] at hnow
          rw [if_pos (hnow rfl)]
          rfl

/-- A queue accepts all that is written if and only if no stretch of cycles brings more
than its depth above what is drained strictly inside it. -/
theorem accepts_iff :
    (∀ t, (wrreq t).isSome = true → (f t).words.length < depth) ↔
      ∀ a t, a ≤ t → during (fun k => (wrreq k).isSome) a (t + 1) ≤
        depth + during rdreq (a + 1) t := by
  rw [← level_lt_iff]
  constructor
  · intro hroom t hwr
    rw [← length_eq_level f wrreq rdreq hrun hempty t fun k _ => hroom k]
    exact hroom t hwr
  · intro hlevel t
    induction t using Nat.strong_induction_on with
    | _ t ih =>
        intro hwr
        rw [length_eq_level f wrreq rdreq hrun hempty t ih]
        exact hlevel t hwr

end Run

end Fifo

end Clocked
