import Mathlib.Algebra.BigOperators.Intervals
import Mathlib.Algebra.Order.BigOperators.Group.Finset

/-!
Rising edges of a sampled signal, counted over a range of cycles. An edge
belongs to the cycle in which the signal is newly high.
-/

namespace Clocked

def rose (x : Nat → Bool) : Nat → Bool
  | 0 => false
  | t + 1 => !x t && x (t + 1)

theorem rose_congr (x x' : Nat → Bool) {t : Nat} (h : ∀ k ≤ t, x k = x' k) :
    rose x t = rose x' t := by
  cases t with
  | zero => rfl
  | succ t => simp only [rose, h t (by omega), h (t + 1) (le_refl _)]

theorem rose_low {x : Nat → Bool} {t : Nat} (h : x t = false) : rose x t = false := by
  cases t with
  | zero => rfl
  | succ t => simp [rose, h]

/-- The rising edges of `x` in the cycles `a ≤ t < b` in which `p` holds. -/
def edges (x p : Nat → Bool) (a b : Nat) : Nat :=
  ∑ t ∈ Finset.Ico a b, (rose x t && p t).toNat

theorem edges_self (x p : Nat → Bool) (a : Nat) : edges x p a a = 0 := by
  simp [edges]

theorem edges_append (x p : Nat → Bool) {a b c : Nat} (hab : a ≤ b) (hbc : b ≤ c) :
    edges x p a b + edges x p b c = edges x p a c :=
  Finset.sum_Ico_consecutive _ hab hbc

theorem sum_edges (x p : Nat → Bool) {f : Nat → Nat} (hf : Monotone f) (n : Nat) :
    ∑ k ∈ Finset.range n, edges x p (f k) (f (k + 1)) = edges x p (f 0) (f n) := by
  induction n with
  | zero => simp [edges]
  | succ n ih =>
      rw [Finset.sum_range_succ, ih,
        edges_append x p (hf (Nat.zero_le n)) (hf (Nat.le_succ n))]

theorem edges_succ (x p : Nat → Bool) {a b : Nat} (h : a ≤ b) :
    edges x p a (b + 1) = edges x p a b + (rose x b && p b).toNat :=
  Finset.sum_Ico_succ_top h _

theorem edges_succ_low {x : Nat → Bool} (p : Nat → Bool) {a b : Nat} (h : a ≤ b)
    (hb : x b = false) : edges x p a (b + 1) = edges x p a b := by
  rw [edges_succ x p h, rose_low hb]
  rfl

theorem edges_eq_zero {x p : Nat → Bool} {a b : Nat}
    (h : ∀ t, a ≤ t → t < b → rose x t = true → p t = false) :
    edges x p a b = 0 := by
  apply Finset.sum_eq_zero
  intro t ht
  rw [Finset.mem_Ico] at ht
  cases hr : rose x t with
  | false => rfl
  | true => simp [h t ht.1 ht.2 hr]

theorem edges_congr {x x' p p' : Nat → Bool} {a b : Nat}
    (h : ∀ t, a ≤ t → t < b → (rose x t && p t) = (rose x' t && p' t)) :
    edges x p a b = edges x' p' a b := by
  apply Finset.sum_congr rfl
  intro t ht
  rw [Finset.mem_Ico] at ht
  rw [h t ht.1 ht.2]

theorem edges_of_forall {x p : Nat → Bool} {a b : Nat}
    (h : ∀ t, a ≤ t → t < b → rose x t = true → p t = true) :
    edges x p a b = edges x (fun _ => true) a b := by
  apply edges_congr
  intro t ha hb
  cases hr : rose x t with
  | false => rfl
  | true => simp [h t ha hb hr]

theorem edges_eq_zero_of_all {x : Nat → Bool} (p : Nat → Bool) {a b : Nat}
    (h : edges x (fun _ => true) a b = 0) : edges x p a b = 0 := by
  apply edges_eq_zero
  intro t ha hb hr
  have ht := Finset.sum_eq_zero_iff.mp h t (Finset.mem_Ico.mpr ⟨ha, hb⟩)
  simp [hr] at ht

theorem edges_const {x p : Nat → Bool} {a b : Nat} {v : Bool}
    (h : ∀ t, a ≤ t → t < b → p t = v) :
    edges x p a b = if v then edges x (fun _ => true) a b else 0 := by
  cases v with
  | true => exact edges_of_forall fun t ha hb _ => h t ha hb
  | false => exact edges_eq_zero fun t ha hb _ => h t ha hb

theorem edges_shift (x p : Nat → Bool) (s : Nat) {a b : Nat} (ha : 0 < a) :
    edges (fun t => x (t + s)) (fun t => p (t + s)) a b = edges x p (a + s) (b + s) := by
  rw [edges, edges, ← Finset.sum_Ico_add']
  apply Finset.sum_congr rfl
  intro t ht
  rw [Finset.mem_Ico] at ht
  obtain ⟨k, rfl⟩ : ∃ k, t = k + 1 := ⟨t - 1, by omega⟩
  have hk : k + 1 + s = (k + s) + 1 := by omega
  simp only [rose, hk]

/-- Edges from a cycle on in which the signal is low can be counted from there,
whatever the signal did before. -/
theorem edges_restart (x p : Nat → Bool) {s : Nat} (h : x s = false) (n : Nat) :
    edges (fun t => x (s + t)) (fun t => p (s + t)) 0 n = edges x p s (s + n) := by
  cases n with
  | zero => rw [edges_self, Nat.add_zero, edges_self]
  | succ n =>
      have hshift := edges_shift x p s (a := 1) (b := n + 1) (by omega)
      have hfirst : edges x p s (s + 1) = 0 := by
        rw [edges_succ_low p (le_refl s) h, edges_self]
      have hzero : edges (fun t => x (s + t)) (fun t => p (s + t)) 0 1 = 0 :=
        edges_succ_low _ (le_refl 0) h
      rw [← edges_append _ _ (b := 1) (by omega) (by omega), hzero, Nat.zero_add,
        ← edges_append x p (b := s + 1) (by omega) (by omega), hfirst, Nat.zero_add]
      simpa only [Nat.add_comm s] using hshift

/-- A signal that follows another by a cycle has its edges, from low on. -/
theorem edges_behind {x y : Nat → Bool} (hx : x 0 = false) (hy : y 0 = false)
    (hstep : ∀ t, y (t + 1) = x t) (n : Nat) :
    edges y (fun _ => true) 0 (n + 1) = edges x (fun _ => true) 0 n := by
  induction n with
  | zero => rw [edges_succ_low _ (Nat.le_refl 0) hy, edges_self, edges_self]
  | succ n ih =>
      rw [edges_succ y _ (Nat.zero_le (n + 1)), ih, edges_succ x _ (Nat.zero_le n)]
      cases n with
      | zero => simp only [rose, hstep, hx, Bool.and_false, Bool.false_and]
      | succ n => simp only [rose, hstep]

/-- The changes of `x` in the cycles up to `n`, of either direction. -/
def toggles (x : Nat → Bool) (n : Nat) : Nat :=
  ∑ t ∈ Finset.range n, (x t ^^ x (t + 1)).toNat

theorem toggles_succ (x : Nat → Bool) (n : Nat) :
    toggles x (n + 1) = toggles x n + (x n ^^ x (n + 1)).toNat :=
  Finset.sum_range_succ _ n

theorem toggles_mono (x : Nat → Bool) {m n : Nat} (h : m ≤ n) : toggles x m ≤ toggles x n :=
  Finset.sum_le_sum_of_subset (Finset.range_subset_range.mpr h)

/-- A signal that starts low rises with every other change. -/
theorem two_mul_edges {x : Nat → Bool} (h : x 0 = false) (n : Nat) :
    2 * edges x (fun _ => true) 0 (n + 1) = toggles x n + (x n).toNat := by
  induction n with
  | zero => rw [edges_succ_low _ (Nat.le_refl 0) h, edges_self, h]; rfl
  | succ n ih =>
      rw [edges_succ _ _ (Nat.zero_le _), toggles_succ, Nat.mul_add, ih, rose]
      cases x n <;> cases x (n + 1) <;> simp

end Clocked
