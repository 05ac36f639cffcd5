import Mathlib.Data.Nat.Find
import Mathlib.Data.Nat.Init
import Mathlib.Logic.Function.Basic
import Mathlib.Order.Basic

/-!
Synchronous machines: a state, one input for each clock cycle and a step that
updates every register at the clock edge. Nothing here names a circuit.
-/

namespace Clocked

universe u v
variable {σ : Type u} {ι : Type v}

/-- The state at the start of each cycle; cycle `t` reads input `inp t`. -/
def trace (step : σ → ι → σ) (s₀ : σ) (inp : Nat → ι) : Nat → σ
  | 0 => s₀
  | t + 1 => step (trace step s₀ inp t) (inp t)

variable (step : σ → ι → σ) (s₀ : σ) (inp : Nat → ι)

@[simp] theorem trace_zero : trace step s₀ inp 0 = s₀ := rfl

theorem trace_succ (t : Nat) :
    trace step s₀ inp (t + 1) = step (trace step s₀ inp t) (inp t) := rfl

theorem trace_add (a k : Nat) :
    trace step s₀ inp (a + k) =
      trace step (trace step s₀ inp a) (fun t => inp (a + t)) k := by
  induction k with
  | zero => rfl
  | succ k ih => rw [← Nat.add_assoc, trace_succ, ih, trace_succ]

theorem trace_congr {inp' : Nat → ι} (t : Nat) (h : ∀ k < t, inp k = inp' k) :
    trace step s₀ inp t = trace step s₀ inp' t := by
  induction t with
  | zero => rfl
  | succ t ih =>
      rw [trace_succ, trace_succ, h t (Nat.lt_succ_self t),
        ih fun k hk => h k (Nat.lt_succ_of_lt hk)]

variable {step s₀ inp}

/-- A part that steps by itself runs by itself. -/
theorem trace_part {τ κ : Type*} {p : σ → τ} {partStep : τ → κ → τ} {sub : ι → κ}
    (hstep : ∀ s i, p (step s i) = partStep (p s) (sub i)) (t : Nat) :
    p (trace step s₀ inp t) = trace partStep (p s₀) (fun k => sub (inp k)) t := by
  induction t with
  | zero => rfl
  | succ t ih => rw [trace_succ, hstep, ih, trace_succ]

/-- So does a part whose input depends on the whole state. -/
theorem trace_wired {τ κ : Type*} {p : σ → τ} {partStep : τ → κ → τ} {sub : σ → ι → κ}
    (hstep : ∀ s i, p (step s i) = partStep (p s) (sub s i)) (t : Nat) :
    p (trace step s₀ inp t) =
      trace partStep (p s₀) (fun k => sub (trace step s₀ inp k) (inp k)) t := by
  induction t with
  | zero => rfl
  | succ t ih => rw [trace_succ, hstep, ih, trace_succ]

/-- The invariant rule: true at the start and kept by every step. -/
theorem trace_invariant {P : σ → Prop} (init : P s₀)
    (keep : ∀ s i, P s → P (step s i)) (t : Nat) : P (trace step s₀ inp t) := by
  induction t with
  | zero => exact init
  | succ t ih => exact keep _ _ ih

/-- The invariant rule along one run, where a step may use the cycle it is taken in. -/
theorem trace_invariant_at {P : Nat → σ → Prop} (init : P 0 s₀)
    (keep : ∀ t, P t (trace step s₀ inp t) → P (t + 1) (trace step s₀ inp (t + 1)))
    (t : Nat) : P t (trace step s₀ inp t) := by
  induction t with
  | zero => exact init
  | succ t ih => exact keep t ih

/-- What holds up to a cycle and in the run from there holds in both together. -/
theorem trace_both {P : σ → Prop} {n m : Nat} (hbefore : ∀ k < n, P (trace step s₀ inp k))
    (hduring : ∀ k < m, P (trace step (trace step s₀ inp n) (fun t => inp (n + t)) k)) :
    ∀ k < n + m, P (trace step s₀ inp k) := by
  intro k hk
  cases Nat.lt_or_ge k n with
  | inl hlt => exact hbefore k hlt
  | inr hge =>
      obtain ⟨j, rfl⟩ := Nat.exists_eq_add_of_le hge
      rw [trace_add]
      exact hduring j (Nat.lt_of_add_lt_add_left hk)

/-- Two machines that a step keeps related run side by side. -/
theorem trace_simulates {τ κ : Type*} {R : σ → τ → Prop} {step' : τ → κ → τ} {t₀ : τ}
    {sub : ι → κ} (init : R s₀ t₀) (keep : ∀ s t i, R s t → R (step s i) (step' t (sub i)))
    (n : Nat) : R (trace step s₀ inp n) (trace step' t₀ (fun k => sub (inp k)) n) := by
  induction n with
  | zero => exact init
  | succ n ih => exact keep _ _ _ ih

/-- What lasts until an event lasts up to the first one. -/
theorem exists_event {p e : Nat → Prop} {n : Nat} (hp : p n)
    (hstay : ∀ t, n ≤ t → p t → ¬ e t → p (t + 1)) (he : ∃ t, n ≤ t ∧ e t) :
    ∃ t, n ≤ t ∧ (∀ k, n ≤ k → k ≤ t → p k) ∧ e t := by
  classical
  obtain ⟨hle, hevent⟩ := Nat.find_spec he
  refine ⟨Nat.find he, hle, ?_, hevent⟩
  intro k hk
  induction k, hk using Nat.le_induction with
  | base => intro _; exact hp
  | succ k hk ih =>
      intro hlt
      exact hstay k hk (ih (Nat.le_of_succ_le hlt)) fun hearly => Nat.find_min he hlt ⟨hk, hearly⟩

/-- What ends has a last cycle. -/
theorem exists_exit {p : Nat → Prop} {n : Nat} (hp : p n) (hends : ∃ t, n ≤ t ∧ ¬ p t) :
    ∃ t, n ≤ t ∧ p t ∧ ¬ p (t + 1) := by
  obtain ⟨u, hnu, hu⟩ := hends
  have hne : n ≠ u := fun heq => hu (heq ▸ hp)
  have hpos : u - 1 + 1 = u := by omega
  obtain ⟨t, hnt, hstay, ht⟩ := exists_event (e := fun k => ¬ p (k + 1)) hp
    (fun _ _ _ hk => not_not.mp hk) ⟨u - 1, by omega, by rwa [hpos]⟩
  exact ⟨t, hnt, hstay t hnt (Nat.le_refl t), ht⟩

/-- A rank that every step lowers short of an event brings it about. -/
theorem exists_of_lower {ρ : Type*} {r : ρ → ρ → Prop} (hwf : WellFounded r) (rank : Nat → ρ)
    {e : Nat → Prop} {n : Nat} (hlower : ∀ t, n ≤ t → ¬ e t → r (rank (t + 1)) (rank t)) :
    ∃ t, n ≤ t ∧ e t := by
  generalize hx : rank n = x
  induction x using hwf.induction generalizing n with
  | _ x ih =>
      by_cases he : e n
      · exact ⟨n, Nat.le_refl n, he⟩
      · obtain ⟨t, hle, het⟩ := ih _ (hx ▸ hlower n (Nat.le_refl n) he)
          (fun t ht => hlower t (Nat.le_of_succ_le ht)) rfl
        exact ⟨t, Nat.le_of_succ_le hle, het⟩

end Clocked
