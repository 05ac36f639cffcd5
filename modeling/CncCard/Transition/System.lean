import Mathlib.Logic.Relation

/-!
Event systems: a partial step function on states, and what can be reached by the
steps that a guard lets through. A guarded invariant is proved with the guard at
hand in each step; with the guard `True` it is an invariant of all runs.
-/

namespace Transition

universe u v
variable {σ : Type u} {ε : Type v}

/-- One step through an event that the guard allows in that state. -/
def Guarded (step : σ → ε → Option σ) (guard : σ → ε → Prop) (s s' : σ) : Prop :=
  ∃ e, guard s e ∧ step s e = some s'

def Reach (step : σ → ε → Option σ) (guard : σ → ε → Prop) : σ → σ → Prop :=
  Relation.ReflTransGen (Guarded step guard)

def anyEvent (_ : σ) (_ : ε) : Prop := True

variable {step : σ → ε → Option σ} {guard : σ → ε → Prop} {s s' s'' : σ}

theorem Reach.refl : Reach step guard s s := Relation.ReflTransGen.refl

theorem Reach.trans (h : Reach step guard s s') (h' : Reach step guard s' s'') :
    Reach step guard s s'' :=
  Relation.ReflTransGen.trans h h'

theorem Reach.event (h : Reach step guard s s') {e : ε} (hguard : guard s' e)
    (hstep : step s' e = some s'') : Reach step guard s s'' :=
  Relation.ReflTransGen.tail h ⟨e, hguard, hstep⟩

theorem Reach.mono {guard' : σ → ε → Prop} (h : Reach step guard s s')
    (hmono : ∀ s e, guard s e → guard' s e) : Reach step guard' s s' := by
  induction h with
  | refl => exact Reach.refl
  | tail _ hstep ih =>
      obtain ⟨e, hguard, hstep⟩ := hstep
      exact ih.event (hmono _ e hguard) hstep

/-- The events of a list, one after the other. -/
theorem reach_of_events {s s' : σ} (es : List ε) (h : es.foldlM step s = some s') :
    Reach step anyEvent s s' := by
  induction es generalizing s with
  | nil =>
      obtain rfl := Option.some.inj h
      exact Reach.refl
  | cons e es ih =>
      rw [List.foldlM_cons, Option.bind_eq_bind, Option.bind_eq_some_iff] at h
      obtain ⟨_, hstep, hrest⟩ := h
      exact (Reach.refl.event trivial hstep).trans (ih hrest)

/-- The invariant rule for guarded runs. -/
theorem Reach.invariant {P : σ → Prop} (h : Reach step guard s s') (init : P s)
    (keep : ∀ s e s', P s → guard s e → step s e = some s' → P s') : P s' := by
  induction h with
  | refl => exact init
  | tail _ hstep ih =>
      obtain ⟨e, hguard, hstep⟩ := hstep
      exact keep _ e _ ih hguard hstep

/-- A run without an end. -/
structure Run (step : σ → ε → Option σ) where
  state : Nat → σ
  event : Nat → ε
  next : ∀ n, step (state n) (event n) = some (state (n + 1))

theorem Run.reach (ρ : Run step) (n : Nat) : Reach step anyEvent (ρ.state 0) (ρ.state n) := by
  induction n with
  | zero => exact Reach.refl
  | succ n ih => exact ih.event (e := ρ.event n) trivial (ρ.next n)

/-- One step more in front of a run. -/
def Run.prepend (ρ : Run step) {e : ε} (h : step s e = some (ρ.state 0)) : Run step where
  state
    | 0 => s
    | n + 1 => ρ.state n
  event
    | 0 => e
    | n + 1 => ρ.event n
  next
    | 0 => h
    | n + 1 => ρ.next n

/-- A run goes on from where it is reached. -/
theorem exists_run_of_reach (ρ : Run step) (h : Reach step guard s (ρ.state 0))
    (hguard : ∀ n, guard (ρ.state n) (ρ.event n)) :
    ∃ ρ' : Run step, ρ'.state 0 = s ∧ (∀ n, guard (ρ'.state n) (ρ'.event n)) ∧
      ∃ a, ∀ n, ρ'.state (a + n) = ρ.state n ∧ ρ'.event (a + n) = ρ.event n := by
  induction h using Relation.ReflTransGen.head_induction_on with
  | refl => exact ⟨ρ, rfl, hguard, 0, fun n => by rw [Nat.zero_add]; exact ⟨rfl, rfl⟩⟩
  | head hstep _ ih =>
      obtain ⟨e, hevent, hstep⟩ := hstep
      obtain ⟨ρ', hstart, hguard', a, hrest⟩ := ih
      rw [← hstart] at hstep
      refine ⟨ρ'.prepend hstep, rfl, ?_, a + 1, fun n => ?_⟩
      · intro n
        cases n with
        | zero => exact hevent
        | succ n => exact hguard' n
      · rw [Nat.add_right_comm]
        exact hrest n

end Transition
