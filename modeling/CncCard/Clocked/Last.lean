import Mathlib.Data.Nat.Init
import Mathlib.Order.Basic

/-!
The last trigger before a cycle, and what a register holds that every trigger sets anew.
-/

namespace Clocked

/-- There is no trigger from `a` to `b`, both left out. -/
def Silent (trig : Nat → Bool) (a b : Nat) : Prop := ∀ k, a < k → k < b → trig k = false

variable {trig : Nat → Bool}

theorem silent_succ {a b : Nat} (hab : a < b) :
    Silent trig a (b + 1) ↔ Silent trig a b ∧ trig b = false := by
  constructor
  · intro h
    exact ⟨fun k hak hkb => h k hak (Nat.lt_succ_of_lt hkb), h b hab (Nat.lt_succ_self b)⟩
  · rintro ⟨h, hlast⟩ k hak hkb
    cases Nat.lt_or_eq_of_le (Nat.le_of_lt_succ hkb) with
    | inl hlt => exact h k hak hlt
    | inr heq => rw [heq, hlast]

theorem silent_self (trig : Nat → Bool) (a : Nat) : Silent trig a (a + 1) :=
  fun _ hak hka => absurd hak (Nat.not_lt_of_le (Nat.le_of_lt_succ hka))

/-- Before any cycle there is a last trigger, or there was none yet. -/
theorem exists_last (trig : Nat → Bool) (t : Nat) :
    (∀ k, k < t → trig k = false) ∨ ∃ a, a < t ∧ trig a = true ∧ Silent trig a t := by
  induction t with
  | zero => exact .inl fun k hk => absurd hk (Nat.not_lt_zero k)
  | succ t ih =>
      cases htrig : trig t with
      | true => exact .inr ⟨t, Nat.lt_succ_self t, htrig, silent_self trig t⟩
      | false =>
          refine ih.imp (fun hnone k hk => ?_) ?_
          · cases Nat.lt_or_eq_of_le (Nat.le_of_lt_succ hk) with
            | inl hlt => exact hnone k hlt
            | inr heq => rw [heq, htrig]
          · rintro ⟨a, hat, hset, hsilent⟩
            exact ⟨a, Nat.lt_succ_of_lt hat, hset, (silent_succ hat).mpr ⟨hsilent, htrig⟩⟩

theorem Silent.mono {a b c : Nat} (h : Silent trig a c) (hbc : b ≤ c) : Silent trig a b :=
  fun k hak hkb => h k hak (Nat.lt_of_lt_of_le hkb hbc)

/-- What the last trigger before `t` sets, or `x₀` when there was none. -/
def Latched {α : Type*} (trig : Nat → Bool) (val : Nat → α) (x₀ : α) (t : Nat) (x : α) : Prop :=
  ((∀ k < t, trig k = false) ∧ x = x₀) ∨
    ∃ a < t, trig a = true ∧ Silent trig a t ∧ x = val a

section Register

variable {α : Type*} {x val : Nat → α}
  (hstep : ∀ t, x (t + 1) = if trig t then val t else x t)
include hstep

theorem register_kept {a b : Nat} (hab : a ≤ b)
    (hquiet : ∀ k, a ≤ k → k < b → trig k = false) : x b = x a := by
  induction b, hab using Nat.le_induction with
  | base => rfl
  | succ b hab ih =>
      rw [hstep, hquiet b hab (Nat.lt_succ_self b),
        ← ih fun k hak hkb => hquiet k hak (Nat.lt_succ_of_lt hkb)]
      rfl

theorem register_of_last {a t : Nat} (hat : a < t) (hset : trig a = true)
    (hsilent : Silent trig a t) : x t = val a := by
  rw [register_kept hstep hat hsilent, hstep, hset]
  rfl

/-- The register holds what the last trigger has set, or what it started with. -/
theorem register_eq (t : Nat) :
    ((∀ k, k < t → trig k = false) ∧ x t = x 0) ∨
      ∃ a, a < t ∧ trig a = true ∧ Silent trig a t ∧ x t = val a := by
  rcases exists_last trig t with hnone | ⟨a, hat, hset, hsilent⟩
  · exact .inl ⟨hnone, register_kept hstep (Nat.zero_le t) fun k _ hkt => hnone k hkt⟩
  · exact .inr ⟨a, hat, hset, hsilent, register_of_last hstep hat hset hsilent⟩

end Register

end Clocked
