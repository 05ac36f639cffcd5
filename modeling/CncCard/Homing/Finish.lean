import CncCard.Homing.Retract
import CncCard.Homing.SlowPhase

/-!
A homing that has been started comes to its end. The machine leaves `SLOW` and `BACK` by
itself; out of `FAST` and `LIMIT` it needs the switches, and if in the end the zero switch is
met before the limit switch, `SLOW` is reached and the reference is set.
-/

namespace CncCard
open Clocked

variable {rom : LineRom}

namespace StateCtrl

/-- The pulses that a moving axis gets from its switches: forth it comes to one of them, back
from the limit switch to the zero switch, and in the end the zero switch comes first. -/
structure Meets (r : Nat → StateCtrl rom) (inp : Nat → Keys) : Prop where
  forth : ∀ n, (r n).rState = .fast →
    ∃ m, n ≤ m ∧ ((r m).rState ≠ .fast ∨ (inp m).b = true ∨ (inp m).c = true)
  back : ∀ n, (r n).rState = .limit → ∃ m, n ≤ m ∧ ((r m).rState ≠ .limit ∨ (inp m).b = true)
  zeroFirst : ∃ n, ∀ m, n ≤ m → (r m).rState = .fast → (inp m).c = true → (inp m).b = true

/-- The end of a deceleration, in which the reference is set. -/
def Referenced (s : StateCtrl rom) : Prop := s.rState = .slow ∧ s.rSet = true

section Step

variable {s : StateCtrl rom} (start : Bool) {b c : Bool}

theorem nextState_ne_fast (hs : s.rState = .fast) (hkey : b = true ∨ c = true) :
    s.nextState start b c ≠ .fast := by
  rw [nextState, hs]
  rcases hkey with rfl | rfl
  · exact HomingState.noConfusion
  · cases b <;> exact HomingState.noConfusion

theorem slow_or_limit_of_nextState (hs : s.rState = .fast)
    (hleft : s.nextState start b c ≠ .fast) : s.nextState start b c = .slow ∨
      (s.nextState start b c = .limit ∧ c = true ∧ b = false) := by
  rw [nextState, hs] at hleft ⊢
  cases b with
  | true => exact .inl rfl
  | false =>
      cases c with
      | true => exact .inr ⟨rfl, rfl, rfl⟩
      | false => exact absurd rfl hleft

/-- The way into `IDLE` is the end of a deceleration. -/
theorem referenced_of_nextState (hcnt : Counting s) (hknown : ∀ code, s.rState ≠ .unused code)
    (hbusy : s.rState ≠ .idle) (hnext : s.nextState start b c = .idle) : s.Referenced := by
  unfold nextState at hnext
  cases hs : s.rState with
  | idle => exact absurd hs hbusy
  | unused code => exact absurd hs (hknown code)
  | slow =>
      refine ⟨hs, ?_⟩
      rw [hs] at hnext
      simp only at hnext
      rw [← hcnt.zero_eq]
      split at hnext
      · next hzero => exact hzero
      · cases hnext
  | fast | back | limit =>
      rw [hs] at hnext
      simp only at hnext
      repeat' split at hnext
      all_goals cases hnext

end Step

section Run

variable {v : HomingVariant} {lineRom : rom.State} {inp : Nat → Keys}

theorem run_rState_succ (t : Nat) : (run v lineRom inp (t + 1)).rState =
    (run v lineRom inp t).nextState (inp t).start (inp t).b (inp t).c :=
  clock_rState v _ _ _ _

theorem run_known (t : Nat) (code : Fin 3) : (run v lineRom inp t).rState ≠ .unused code :=
  runFrom_ne_unused v inp rfl t code

theorem exists_referenced_of_slow {t : Nat} (hslow : (run v lineRom inp t).rState = .slow) :
    ∃ u, t ≤ u ∧ (run v lineRom inp u).Referenced := by
  cases hset : (run v lineRom inp t).rSet with
  | true => exact ⟨t, Nat.le_refl t, hslow, hset⟩
  | false =>
      obtain ⟨u, htu, hlow, hhigh⟩ := exists_set v lineRom inp hslow hset
      have hcnt := run_counting v lineRom inp u
      rw [run_succ] at hhigh
      refine ⟨u + 1, Nat.le_succ_of_le htu, ?_, hhigh⟩
      exact run_slow_succ v lineRom inp (hcnt.of_set v _ _ _ hlow hhigh).2.2 hlow

theorem run_rState3Cnt_le (t : Nat) : (run v lineRom inp t).rState3Cnt ≤ c2s := by
  cases t with
  | zero => exact Nat.zero_le _
  | succ t => exact runFrom_rState3Cnt_le v inp rfl t

/-- The two seconds of `BACK` pass. -/
theorem exists_fast_of_back {t : Nat} (hback : (run v lineRom inp t).rState = .back) :
    ∃ u, t ≤ u ∧ (run v lineRom inp u).rState = .fast := by
  by_contra hnever
  have hstay (k : Nat) : (run v lineRom inp (t + k)).rState = .back ∧
      k ≤ (run v lineRom inp (t + k)).rState3Cnt := by
    induction k with
    | zero => exact ⟨hback, Nat.zero_le _⟩
    | succ k ih =>
        obtain ⟨hstate, hcnt⟩ := ih
        cases Nat.lt_or_ge (run v lineRom inp (t + k)).rState3Cnt c2s with
        | inl hlow =>
            have hnext := back_counts v (inp (t + k)).start (inp (t + k)).b (inp (t + k)).c
              hstate hlow
            rw [← run_succ] at hnext
            exact ⟨hnext.1, hnext.2.1 ▸ Nat.succ_le_succ hcnt⟩
        | inr hfull =>
            have hend := back_ends v (inp (t + k)).start (inp (t + k)).b (inp (t + k)).c hstate
              (Nat.le_antisymm (run_rState3Cnt_le (t + k)) hfull)
            exact absurd ⟨t + k + 1, by omega, hend⟩ hnever
  have hbound : (run v lineRom inp (t + (c2s + 1))).rState3Cnt ≤ c2s := run_rState3Cnt_le _
  have hcount := (hstay (c2s + 1)).2
  omega

section Met

variable (hmeets : Meets (run v lineRom inp) inp)
include hmeets

theorem exists_left_fast {t : Nat} (hfast : (run v lineRom inp t).rState = .fast) :
    ∃ u, t ≤ u ∧ (run v lineRom inp u).rState = .fast ∧
      (run v lineRom inp (u + 1)).rState ≠ .fast := by
  refine exists_exit (p := fun k => (run v lineRom inp k).rState = .fast) hfast ?_
  obtain ⟨m, htm, hm⟩ := hmeets.forth t hfast
  by_cases hstate : (run v lineRom inp m).rState = .fast
  · refine ⟨m + 1, Nat.le_succ_of_le htm, ?_⟩
    rw [run_rState_succ]
    exact nextState_ne_fast _ hstate (hm.resolve_left (not_not.mpr hstate))
  · exact ⟨m, htm, hstate⟩

theorem exists_back_of_limit {t : Nat} (hlimit : (run v lineRom inp t).rState = .limit) :
    ∃ u, t ≤ u ∧ (run v lineRom inp u).rState = .back := by
  obtain ⟨m, htm, hm⟩ := hmeets.back t hlimit
  have hleft : ∃ m, t ≤ m ∧ (run v lineRom inp m).rState ≠ .limit := by
    by_cases hstate : (run v lineRom inp m).rState = .limit
    · refine ⟨m + 1, Nat.le_succ_of_le htm, ?_⟩
      rw [run_rState_succ, nextState, hstate, hm.resolve_left (not_not.mpr hstate)]
      exact HomingState.noConfusion
    · exact ⟨m, htm, hstate⟩
  obtain ⟨u, htu, hu, hnext⟩ :=
    exists_exit (p := fun k => (run v lineRom inp k).rState = .limit) hlimit hleft
  refine ⟨u + 1, Nat.le_succ_of_le htu, ?_⟩
  rw [run_rState_succ, nextState, hu] at hnext ⊢
  cases hb : (inp u).b with
  | true => rfl
  | false =>
      rw [hb] at hnext
      exact absurd rfl hnext

/-- Once the zero switch comes first, a moving axis gets to its reference. -/
theorem exists_referenced_late : ∃ n, ∀ t, n ≤ t → (run v lineRom inp t).rState ≠ .idle →
    ∃ u, t ≤ u ∧ (run v lineRom inp u).Referenced := by
  obtain ⟨n, hzero⟩ := hmeets.zeroFirst
  refine ⟨n, fun t hnt hbusy => ?_⟩
  have hslow {w : Nat} (htw : t ≤ w) (hw : (run v lineRom inp w).rState = .slow) :
      ∃ u, t ≤ u ∧ (run v lineRom inp u).Referenced := by
    obtain ⟨u, hwu, hu⟩ := exists_referenced_of_slow hw
    exact ⟨u, Nat.le_trans htw hwu, hu⟩
  have hfast {w : Nat} (htw : t ≤ w) (hw : (run v lineRom inp w).rState = .fast) :
      ∃ u, t ≤ u ∧ (run v lineRom inp u).Referenced := by
    obtain ⟨u, hwu, hu, hleft⟩ := exists_left_fast hmeets hw
    refine hslow (w := u + 1) (by omega) ?_
    rw [run_rState_succ] at hleft ⊢
    rcases slow_or_limit_of_nextState _ hu hleft with hnext | ⟨-, hc, hb⟩
    · exact hnext
    · rw [hzero u (by omega) hu hc] at hb
      cases hb
  have hback {w : Nat} (htw : t ≤ w) (hw : (run v lineRom inp w).rState = .back) :
      ∃ u, t ≤ u ∧ (run v lineRom inp u).Referenced := by
    obtain ⟨u, hwu, hu⟩ := exists_fast_of_back hw
    exact hfast (Nat.le_trans htw hwu) hu
  cases hs : (run v lineRom inp t).rState with
  | idle => exact absurd hs hbusy
  | fast => exact hfast (Nat.le_refl t) hs
  | slow => exact hslow (Nat.le_refl t) hs
  | back => exact hback (Nat.le_refl t) hs
  | limit =>
      obtain ⟨u, htu, hu⟩ := exists_back_of_limit hmeets hs
      exact hback htu hu
  | unused code => exact absurd hs (run_known t code)

/-- A homing that goes on gets to its reference. -/
theorem exists_referenced {t : Nat} (hbusy : (run v lineRom inp t).rState ≠ .idle) :
    ∃ u, t ≤ u ∧ (run v lineRom inp u).Referenced := by
  obtain ⟨n, hlate⟩ := exists_referenced_late hmeets
  by_cases hidle : ∃ u, t ≤ u ∧ (run v lineRom inp u).rState = .idle
  · obtain ⟨u, htu, hu⟩ := hidle
    obtain ⟨w, htw, hbefore, hw⟩ :=
      exists_exit (p := fun k => (run v lineRom inp k).rState ≠ .idle) hbusy
        ⟨u, htu, not_not.mpr hu⟩
    have hnext := not_not.mp hw
    rw [run_rState_succ] at hnext
    exact ⟨w, htw, referenced_of_nextState _ (run_counting v lineRom inp w) (run_known w) hbefore
      hnext⟩
  · obtain ⟨u, hu, href⟩ := hlate (max n t) (Nat.le_max_left n t)
      fun heq => hidle ⟨max n t, Nat.le_max_right n t, heq⟩
    exact ⟨u, Nat.le_trans (Nat.le_max_right n t) hu, href⟩

end Met

end Run

end StateCtrl

end CncCard
