import CncCard.Clocked.Last

/-!
A timer that every trigger starts anew and that stops when it has come to its end. In that
last cycle a trigger goes by without starting it.
-/

namespace Clocked

/-- The time since the timer was started, while it runs. -/
def oneShot (len : Nat) (trig : Nat → Bool) : Nat → Option Nat
  | 0 => none
  | t + 1 =>
      if oneShot len trig t = some len then none
      else if trig t then some 0
      else (oneShot len trig t).map (· + 1)

/-- The trigger goes by: the one before it has started the timer, and just so long ago that
it ends now. -/
def Missed (len : Nat) (trig : Nat → Bool) (t : Nat) : Prop :=
  trig t = true ∧ ∃ a, ∃ _ : a + 1 + len = t,
    trig a = true ∧ Silent trig a t ∧ ¬ Missed len trig a
termination_by t
decreasing_by omega

variable {len : Nat} {trig : Nat → Bool}

theorem oneShot_start {t : Nat} (htrig : trig t = true) (h : oneShot len trig t ≠ some len) :
    oneShot len trig (t + 1) = some 0 := by
  rw [oneShot, if_neg h, if_pos htrig]

/-- A timer that has been started runs as long as nothing happens, up to its end. -/
theorem oneShot_runs {a k : Nat} (htrig : trig a = true) (h : oneShot len trig a ≠ some len)
    (hsilent : Silent trig a (a + 1 + k)) (hk : k ≤ len) :
    oneShot len trig (a + 1 + k) = some k := by
  induction k with
  | zero => exact oneShot_start htrig h
  | succ k ih =>
      obtain ⟨hbefore, hlast⟩ :=
        (silent_succ (b := a + 1 + k) (Nat.lt_add_right k (Nat.lt_succ_self a))).mp hsilent
      have hrun := ih hbefore (Nat.le_of_succ_le hk)
      have hpart : some k ≠ some len := fun heq => by
        have := Option.some.inj heq
        omega
      rw [← Nat.add_assoc, oneShot, hrun, if_neg hpart, hlast, if_neg Bool.false_ne_true]
      rfl

/-- The timer shows `k` if and only if it was started so long ago and nothing has happened
since. -/
theorem oneShot_eq_some_iff {t k : Nat} :
    oneShot len trig t = some k ↔ k ≤ len ∧ ∃ a, a + 1 + k = t ∧ trig a = true ∧
      oneShot len trig a ≠ some len ∧ Silent trig a t := by
  constructor
  · intro h
    induction t generalizing k with
    | zero => cases h
    | succ t ih =>
        rw [oneShot] at h
        split at h
        · cases h
        next hrun =>
        split at h
        · next htrig =>
            cases h
            exact ⟨Nat.zero_le _, t, rfl, htrig, hrun, silent_self trig t⟩
        · next hquiet =>
            obtain ⟨j, hj, rfl⟩ := Option.map_eq_some_iff.mp h
            obtain ⟨hle, a, hat, htrig, hstart, hsilent⟩ := ih hj
            have hne : j ≠ len := fun heq => hrun (heq ▸ hj)
            refine ⟨by omega, a, by omega, htrig, hstart, ?_⟩
            exact (silent_succ (by omega)).mpr ⟨hsilent, Bool.eq_false_iff.mpr hquiet⟩
  · rintro ⟨hk, a, rfl, htrig, hstart, hsilent⟩
    exact oneShot_runs htrig hstart hsilent hk

/-- Long after its last trigger the timer is not at its end. -/
theorem oneShot_over {a t : Nat} (hsilent : Silent trig a t)
    (hlate : a + 1 + len < t) : oneShot len trig t ≠ some len := by
  intro h
  obtain ⟨-, b, hbt, htrig', -, -⟩ := oneShot_eq_some_iff.mp h
  rw [hsilent b (by omega) (by omega)] at htrig'
  cases htrig'

/-- Nor is it after a trigger that has gone by. -/
theorem oneShot_lost {a t : Nat} (hmissed : trig a = true ∧ oneShot len trig a = some len)
    (hsilent : Silent trig a t) (hat : a < t) : oneShot len trig t ≠ some len := by
  intro h
  obtain ⟨-, b, hbt, htrig, hstart, hbetween⟩ := oneShot_eq_some_iff.mp h
  cases Nat.lt_trichotomy a b with
  | inl hab =>
      rw [hsilent b hab (by omega)] at htrig
      cases htrig
  | inr hge =>
      cases hge with
      | inl heq => exact hstart (heq ▸ hmissed.2)
      | inr hba =>
          have hlow := hbetween a hba hat
          rw [hmissed.1] at hlow
          cases hlow

theorem oneShot_none {t : Nat} (hnone : ∀ k, k < t → trig k = false) :
    oneShot len trig t = none := by
  refine Option.eq_none_iff_forall_ne_some.mpr fun k h => ?_
  obtain ⟨-, a, hat, htrig, -, -⟩ := oneShot_eq_some_iff.mp h
  rw [hnone a (by omega)] at htrig
  cases htrig

theorem missed_iff {t : Nat} :
    Missed len trig t ↔ trig t = true ∧ oneShot len trig t = some len := by
  induction t using Nat.strong_induction_on with
  | _ t ih =>
      rw [Missed, oneShot_eq_some_iff]
      refine and_congr_right fun _ => ?_
      constructor
      · rintro ⟨a, hat, htrig, hsilent, hstarts⟩
        refine ⟨Nat.le_refl len, a, hat, htrig, fun hend => hstarts ?_, hsilent⟩
        exact (ih a (by omega)).mpr ⟨htrig, hend⟩
      · rintro ⟨-, a, hat, htrig, hstart, hsilent⟩
        exact ⟨a, hat, htrig, hsilent, fun hmissed => hstart ((ih a (by omega)).mp hmissed).2⟩

/-- Two ends of the timer are more than its length apart. -/
theorem oneShot_ends_apart {t u : Nat} (htu : t < u) (ht : oneShot len trig t = some len)
    (hu : oneShot len trig u = some len) : t + 1 + len < u := by
  obtain ⟨-, a, hat, htrig, -, hsilent⟩ := oneShot_eq_some_iff.mp ht
  obtain ⟨-, b, hbu, htrig', hstart, -⟩ := oneShot_eq_some_iff.mp hu
  have hafter : t < b := by
    refine Nat.lt_of_le_of_ne (Nat.le_of_not_lt fun hbt => ?_) fun heq => hstart (heq ▸ ht)
    rw [hsilent b (by omega) hbt] at htrig'
    cases htrig'
  omega

/-- Triggers that leave the timer the time to end each bring an end, and nothing else does. -/
theorem oneShot_end_iff_of_spaced
    (hspaced : ∀ s t, s < t → trig s = true → trig t = true → s + (len + 2) ≤ t) (t : Nat) :
    oneShot len trig (t + 1 + len) = some len ↔ trig t = true := by
  rw [oneShot_eq_some_iff]
  constructor
  · rintro ⟨-, a, hat, htrig, -, -⟩
    obtain rfl : a = t := by omega
    exact htrig
  · intro htrig
    refine ⟨Nat.le_refl len, t, rfl, htrig, fun hend => ?_, fun k htk hk => ?_⟩
    · obtain ⟨-, a, hat, hbefore, -, -⟩ := oneShot_eq_some_iff.mp hend
      have := hspaced a t (by omega) hbefore htrig
      omega
    · by_contra hnext
      have := hspaced t k htk htrig (eq_true_of_ne_false hnext)
      omega

end Clocked
