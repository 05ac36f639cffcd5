import CncCard.Clocked.Edges
import CncCard.Clocked.Level
import Mathlib.Algebra.BigOperators.Ring.Finset

/-!
A multiplexed signal: one of several sampled signals, as a selector picks it in each cycle.
Its rising edges are those of the selected signals, plus what a change of the selector makes.
-/

namespace Clocked

universe u
variable {κ : Type u}

def mux (sel : Nat → κ) (x : κ → Nat → Bool) (t : Nat) : Bool := x (sel t) t

/-- While the selector stays, the edges are those of the one signal. -/
theorem edges_mux_of_stays (sel : Nat → κ) (x : κ → Nat → Bool) {k : κ} {a b : Nat}
    (h : ∀ t, a ≤ t → t < b → sel t = k) :
    edges (mux sel x) (fun _ => true) (a + 1) b = edges (x k) (fun _ => true) (a + 1) b := by
  apply edges_congr
  intro t ha hb
  obtain ⟨n, rfl⟩ : ∃ n, t = n + 1 := ⟨t - 1, by omega⟩
  simp only [rose, mux, h n (by omega) (by omega), h (n + 1) (by omega) hb]

variable [DecidableEq κ]

/-- The selector picks something else than in the cycle before. -/
def changed (sel : Nat → κ) : Nat → Bool
  | 0 => false
  | t + 1 => decide (sel t ≠ sel (t + 1))

/-- The selector picks `k` and has not changed. -/
def steady (sel : Nat → κ) (k : κ) (t : Nat) : Bool := !changed sel t && decide (sel t = k)

variable (sel : Nat → κ) (x : κ → Nat → Bool)

theorem rose_mux {t : Nat} (h : changed sel t = false) :
    rose (mux sel x) t = rose (x (sel t)) t := by
  cases t with
  | zero => rfl
  | succ t =>
      have hsame : sel t = sel (t + 1) := not_not.mp (of_decide_eq_false h)
      simp only [rose, mux, hsame]

/-- Each rising edge is one of the selected signal, or made by a change. -/
theorem edges_mux [Fintype κ] (a b : Nat) :
    edges (mux sel x) (fun _ => true) a b =
      ∑ k, edges (x k) (steady sel k) a b + edges (mux sel x) (changed sel) a b := by
  simp only [edges]
  rw [Finset.sum_comm, ← Finset.sum_add_distrib]
  apply Finset.sum_congr rfl
  intro t _
  cases hch : changed sel t with
  | true => simp [steady, hch]
  | false =>
      rw [rose_mux sel x hch, Finset.sum_eq_single (sel t)]
      · simp [steady, hch]
      · intro k _ hk
        simp [steady, hch, Ne.symm hk]
      · exact fun h => absurd (Finset.mem_univ _) h

/-- A change to a signal that is low makes no edge. -/
theorem edges_changed_le {loud : Nat → Bool} {a b : Nat}
    (h : ∀ t, changed sel t = true → x (sel t) t = true → loud t = true) :
    edges (mux sel x) (changed sel) a b ≤ during loud a b := by
  apply Finset.sum_le_sum
  intro t _
  cases hrose : rose (mux sel x) t && changed sel t with
  | false => exact Nat.zero_le _
  | true =>
      obtain ⟨hrise, hch⟩ := Bool.and_eq_true_iff.mp hrose
      cases t with
      | zero => cases hch
      | succ t => rw [h (t + 1) hch (Bool.and_eq_true_iff.mp hrise).2]

section Demux

variable (sel : Nat → Option κ) (x : Nat → Bool)

/-- The signal goes to the output that is selected, if one is. -/
def demux (k : κ) (t : Nat) : Bool := decide (sel t = some k) && x t

variable {sel x} in
theorem selected_of_demux {k : κ} {t : Nat} (h : demux sel x k t = true) : sel t = some k :=
  of_decide_eq_true (Bool.and_eq_true_iff.mp h).1

theorem rose_demux_le [Fintype κ] (t : Nat) :
    ∑ k, (rose (demux sel x k) t).toNat ≤ (rose x t).toNat + (changed sel t).toNat := by
  cases t with
  | zero => simp [rose]
  | succ t =>
      have hother (k : κ) (hk : sel (t + 1) ≠ some k) :
          (rose (demux sel x k) (t + 1)).toNat = 0 := by
        simp [rose, demux, hk]
      cases hsel : sel (t + 1) with
      | none =>
          have hnone (k : κ) : sel (t + 1) ≠ some k := hsel ▸ Option.some_ne_none k ∘ Eq.symm
          rw [Finset.sum_eq_zero fun k _ => hother k (hnone k)]
          exact Nat.zero_le _
      | some k =>
          rw [Finset.sum_eq_single k]
          · cases hch : changed sel (t + 1) with
            | true => cases rose (demux sel x k) (t + 1) <;> simp
            | false =>
                have hsame : sel t = sel (t + 1) := not_not.mp (of_decide_eq_false hch)
                simp [rose, demux, hsame, hsel]
          · intro j _ hj
            exact hother j (by rw [hsel]; exact fun h => hj (Option.some.inj h).symm)
          · exact fun h => absurd (Finset.mem_univ _) h

/-- All outputs together have no more edges than the signal, but for the changes of the
selection. -/
theorem edges_demux_le [Fintype κ] (a b : Nat) :
    ∑ k, edges (demux sel x k) (fun _ => true) a b ≤
      edges x (fun _ => true) a b + during (changed sel) a b := by
  simp only [edges, during, Bool.and_true]
  rw [Finset.sum_comm, ← Finset.sum_add_distrib]
  exact Finset.sum_le_sum fun t _ => rose_demux_le sel x t

end Demux

end Clocked
