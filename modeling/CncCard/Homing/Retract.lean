import CncCard.Homing.StateCtrl

/-!
The retraction behind a limit switch. `LIMIT` is entered from `FAST` alone, which clears
`r_state3_cnt`, so `BACK` begins with a cleared counter in both variants, whether `LIMIT`
clears it or not.
-/

namespace CncCard
open Clocked

variable {rom : LineRom}

namespace StateCtrl

/-- A run keeps to the five states of the machine, and every stay in `BACK` takes the two
seconds, counted from zero. -/
structure Retracts (r : Nat → StateCtrl rom) : Prop where
  known : ∀ t code, (r t).rState ≠ .unused code
  entered : ∀ t, (r t).rState ≠ .back → (r (t + 1)).rState = .back → (r (t + 1)).rState3Cnt = 0
  lasts : ∀ t, (r t).rState ≠ .back → (r (t + 1)).rState = .back →
    (∀ k ≤ c2s, (r (t + 1 + k)).rState = .back ∧ (r (t + 1 + k)).rDir = false) ∧
    (r (t + 1 + (c2s + 1))).rState ≠ .back
  bounded : ∀ t, (r 0).rState3Cnt ≤ c2s ∨ 0 < t → (r t).rState3Cnt ≤ c2s
  noWrap : ∀ t, (r t).rState = .back → (r t).rState3Cnt < c2s →
    (r (t + 1)).rState3Cnt = (r t).rState3Cnt + 1

section Step

variable (v : HomingVariant) (s : StateCtrl rom) (start b c : Bool)

theorem clock_rState3Cnt : (s.clock v start b c).rState3Cnt =
    match s.rState with
    | .back => if s.rState3Cnt < c2s then (s.rState3Cnt + 1) % 2 ^ 28 else s.rState3Cnt
    | .limit => if v.limitClears then 0 else s.rState3Cnt
    | _ => 0 := by
  simp only [clock]
  split <;> rfl

theorem clock_rDir : (s.clock v start b c).rDir =
    match s.rState with
    | .back | .limit => false
    | _ => true := by
  simp only [clock]
  split <;> rfl

variable {s}

theorem limit_of_nextState_back (h : s.nextState start b c = .back) (hout : s.rState ≠ .back) :
    s.rState = .limit := by
  unfold nextState at h
  cases hs : s.rState with
  | limit => rfl
  | back => exact absurd hs hout
  | idle | fast | slow =>
      rw [hs] at h
      simp only at h
      repeat' split at h
      all_goals cases h
  | unused code =>
      rw [hs] at h
      cases h

/-- In `LIMIT` the counter is clear. -/
def LimitClear (s : StateCtrl rom) : Prop := s.rState = .limit → s.rState3Cnt = 0

theorem LimitClear.clock (h : LimitClear s) : LimitClear (s.clock v start b c) := by
  intro hnext
  rw [clock_rState, nextState] at hnext
  rw [clock_rState3Cnt]
  cases hs : s.rState with
  | limit =>
      simp only
      rw [h hs]
      exact ite_self 0
  | back =>
      rw [hs] at hnext
      simp only at hnext
      split at hnext <;> cases hnext
  | _ => rfl

theorem LimitClear.entered (h : LimitClear s) (hout : s.rState ≠ .back)
    (hnext : (s.clock v start b c).rState = .back) :
    (s.clock v start b c).rState3Cnt = 0 ∧ (s.clock v start b c).rDir = false := by
  rw [clock_rState] at hnext
  have hlimit := limit_of_nextState_back start b c hnext hout
  rw [clock_rState3Cnt, clock_rDir, hlimit]
  simp only
  rw [h hlimit]
  exact ⟨ite_self 0, trivial⟩

theorem back_counts (hback : s.rState = .back) (hlow : s.rState3Cnt < c2s) :
    (s.clock v start b c).rState = .back ∧
    (s.clock v start b c).rState3Cnt = s.rState3Cnt + 1 ∧
    (s.clock v start b c).rDir = false := by
  have hfits : (s.rState3Cnt + 1) % 2 ^ 28 = s.rState3Cnt + 1 := by
    simp only [c2s] at hlow
    omega
  rw [clock_rState, clock_rState3Cnt, clock_rDir, nextState, hback]
  simp only
  rw [if_neg (Nat.ne_of_lt hlow), if_pos hlow, hfits]
  exact ⟨rfl, rfl, trivial⟩

theorem back_ends (hback : s.rState = .back) (hfull : s.rState3Cnt = c2s) :
    (s.clock v start b c).rState = .fast := by
  rw [clock_rState, nextState, hback]
  simp only
  exact if_pos hfull

theorem clock_rState3Cnt_le (hle : s.rState = .back ∨ s.rState = .limit → s.rState3Cnt ≤ c2s) :
    (s.clock v start b c).rState3Cnt ≤ c2s := by
  rw [clock_rState3Cnt]
  cases hs : s.rState with
  | back =>
      have := hle (.inl hs)
      simp only
      split
      · omega
      · assumption
  | limit =>
      simp only
      split
      · exact Nat.zero_le _
      · exact hle (.inr hs)
  | _ => exact Nat.zero_le _

end Step

section Run

variable (v : HomingVariant) {s : StateCtrl rom} (inp : Nat → Keys)

theorem runFrom_succ (t : Nat) : runFrom v s inp (t + 1) =
    (runFrom v s inp t).clock v (inp t).start (inp t).b (inp t).c := rfl

variable (hidle : s.rState = .idle)
include hidle

theorem runFrom_limitClear (t : Nat) : LimitClear (runFrom v s inp t) := by
  refine trace_invariant (P := LimitClear) ?_ (fun s i h => h.clock v _ _ _) t
  intro hlimit
  rw [hidle] at hlimit
  cases hlimit

theorem runFrom_back {t : Nat} (hout : (runFrom v s inp t).rState ≠ .back)
    (hback : (runFrom v s inp (t + 1)).rState = .back) (k : Nat) : k ≤ c2s →
    (runFrom v s inp (t + 1 + k)).rState = .back ∧
    (runFrom v s inp (t + 1 + k)).rState3Cnt = k ∧
    (runFrom v s inp (t + 1 + k)).rDir = false := by
  induction k with
  | zero =>
      obtain ⟨hzero, hdir⟩ := (runFrom_limitClear v inp hidle t).entered v _ _ _ hout hback
      exact fun _ => ⟨hback, hzero, hdir⟩
  | succ k ih =>
      intro hk
      obtain ⟨hstate, hcnt, -⟩ := ih (Nat.le_of_succ_le hk)
      have hnext := back_counts v (inp (t + 1 + k)).start (inp (t + 1 + k)).b
        (inp (t + 1 + k)).c hstate (by omega)
      rw [hcnt] at hnext
      exact hnext

theorem runFrom_rState3Cnt_le (t : Nat) : (runFrom v s inp (t + 1)).rState3Cnt ≤ c2s := by
  induction t with
  | zero =>
      refine clock_rState3Cnt_le v _ _ _ fun hstate => ?_
      rcases hstate with hstate | hstate
      · exact nomatch hidle.symm.trans hstate
      · exact nomatch hidle.symm.trans hstate
  | succ t ih => exact clock_rState3Cnt_le v _ _ _ fun _ => ih

theorem runFrom_ne_unused (t : Nat) (code : Fin 3) :
    (runFrom v s inp t).rState ≠ .unused code := by
  cases t with
  | zero => exact fun hstate => nomatch hidle.symm.trans hstate
  | succ t =>
      rw [runFrom_succ, clock_rState]
      exact nextState_ne_unused _ _ _ _ code

end Run

/-- Every run from `IDLE` retracts for the two seconds, in both variants. -/
theorem retracts_of_idle (v : HomingVariant) (s : StateCtrl rom) (hidle : s.rState = .idle)
    (inp : Nat → Keys) : Retracts (runFrom v s inp) where
  known := runFrom_ne_unused v inp hidle
  entered t hout hback := (runFrom_back v inp hidle hout hback 0 (Nat.zero_le _)).2.1
  lasts t hout hback := by
    have hstay := runFrom_back v inp hidle hout hback
    obtain ⟨hlast, hfull, -⟩ := hstay c2s (Nat.le_refl _)
    refine ⟨fun k hk => ⟨(hstay k hk).1, (hstay k hk).2.2⟩, fun hmore => ?_⟩
    rw [← Nat.add_assoc, runFrom_succ, back_ends v _ _ _ hlast hfull] at hmore
    cases hmore
  bounded t ht := by
    cases t with
    | zero => exact ht.resolve_right (Nat.lt_irrefl 0)
    | succ t => exact runFrom_rState3Cnt_le v inp hidle t
  noWrap t hback hlow := (back_counts v _ _ _ hback hlow).2.1

/-- The start key, the limit switch and the zero switch, one after the other. -/
def limitMet (t : Nat) : Keys := ⟨decide (t = 0), decide (t = 2), decide (t = 1)⟩

theorem retracts_limitMet :
    (runFrom ⟨false, false⟩ (@powerUp ⟨Unit, fun s _ => s, fun _ => 4000⟩ ()) limitMet
      (3 + (c2s + 1))).rState ≠ .back :=
  ((retracts_of_idle ⟨false, false⟩ (@powerUp ⟨Unit, fun s _ => s, fun _ => 4000⟩ ()) rfl
    limitMet).lasts 2 (by decide) rfl).2

end StateCtrl

end CncCard
