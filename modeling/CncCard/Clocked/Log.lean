import Mathlib.Data.List.Basic
import Mathlib.Data.Nat.Init
import Mathlib.Order.Basic

/-!
Logs of a run: what its cycles record, cycle by cycle, as one list.
-/

namespace Clocked

universe u
variable {α : Type u}

def log (e : Nat → List α) : Nat → List α
  | 0 => []
  | n + 1 => log e n ++ e n

variable (e : Nat → List α)

@[simp] theorem log_zero : log e 0 = [] := rfl

theorem log_succ (n : Nat) : log e (n + 1) = log e n ++ e n := rfl

theorem log_add (a n : Nat) : log e (a + n) = log e a ++ log (fun t => e (a + t)) n := by
  induction n with
  | zero => rw [Nat.add_zero, log_zero, List.append_nil]
  | succ n ih => rw [← Nat.add_assoc, log_succ, ih, log_succ, List.append_assoc]

theorem log_begins {a b : Nat} (h : a ≤ b) : log e a <+: log e b := by
  obtain ⟨n, rfl⟩ := Nat.exists_eq_add_of_le h
  rw [log_add]
  exact List.prefix_append _ _

theorem log_flatMap {β : Type u} (f : α → List β) (n : Nat) :
    (log e n).flatMap f = log (fun t => (e t).flatMap f) n := by
  induction n with
  | zero => rfl
  | succ n ih => rw [log_succ, List.flatMap_append, ih, log_succ]

/-- A list that is recorded entry by entry. -/
theorem log_getElem? (ws : List α) (n : Nat) : log (fun t => ws[t]?.toList) n = ws.take n := by
  induction n with
  | zero => rfl
  | succ n ih => rw [log_succ, ih, List.take_add_one]

variable {e}

theorem log_eq_nil {n : Nat} (h : ∀ t < n, e t = []) : log e n = [] := by
  induction n with
  | zero => rfl
  | succ n ih =>
      rw [log_succ, ih fun t ht => h t (Nat.lt_succ_of_lt ht), h n (Nat.lt_succ_self n),
        List.append_nil]

theorem log_silent {a b : Nat} (hab : a ≤ b) (h : ∀ t, a ≤ t → t < b → e t = []) :
    log e b = log e a := by
  obtain ⟨n, rfl⟩ := Nat.exists_eq_add_of_le hab
  rw [log_add, log_eq_nil fun t ht => h (a + t) (Nat.le_add_right a t) (by omega),
    List.append_nil]

/-- A log that never outgrows a list is added to for some time only. -/
theorem log_stops {l : List α} (h : ∀ t, log e t <+: l) : ∃ n, ∀ t, n ≤ t → e t = [] := by
  by_contra hno
  have hmore (n : Nat) : ∃ t, n ≤ t ∧ e t ≠ [] := by
    by_contra hnone
    exact hno ⟨n, fun t hnt => not_not.mp fun hne => hnone ⟨t, hnt, hne⟩⟩
  have hlong (k : Nat) : ∃ n, k ≤ (log e n).length := by
    induction k with
    | zero => exact ⟨0, Nat.zero_le _⟩
    | succ k ih =>
        obtain ⟨n, hkn⟩ := ih
        obtain ⟨t, hnt, hne⟩ := hmore n
        have hbefore := (log_begins e hnt).length_le
        have hpos := List.length_pos_iff.mpr hne
        refine ⟨t + 1, ?_⟩
        rw [log_succ, List.length_append]
        omega
  obtain ⟨n, hn⟩ := hlong (l.length + 1)
  have hle := (h n).length_le
  omega

end Clocked
