import CncCard.Homing.SlowPhase

/-!
The stays in `SLOW`. The edge of the ROM clock behind the last value raises
`r_state2_zero`, the next one clears the counter and the one after it the flag: a homing
that comes to `SLOW` again before that finds its end already there.
-/

namespace CncCard
open Clocked

variable {rom : LineRom}

/-- A whole stay in `SLOW`, from the cycle behind `a` to `n`. -/
structure SlowStay (state : Nat → HomingState) (a n : Nat) : Prop
    extends SlowPhase state a n where
  ends : state (n + 1) ≠ .slow

/-- `SLOW` is entered again two periods of the ROM clock after it has been left, or later. -/
def Apart (state : Nat → HomingState) : Prop :=
  ∀ a n m, SlowStay state a n → n < m → (∀ k, n < k → k ≤ m → state k ≠ .slow) →
    state (m + 1) = .slow → n + 2 * c40ms ≤ m + 1

/-- The last stay before a cycle out of `SLOW`. -/
theorem exists_last_stay (state : Nat → HomingState) (hstart : state 0 ≠ .slow) {m : Nat}
    (hout : state m ≠ .slow) :
    (∀ k, k ≤ m → state k ≠ .slow) ∨
    ∃ a n, SlowStay state a n ∧ n < m ∧ ∀ k, n < k → k ≤ m → state k ≠ .slow := by
  induction m with
  | zero =>
      refine .inl fun k hk => ?_
      rw [Nat.le_zero.mp hk]
      exact hstart
  | succ m ih =>
      by_cases hlast : state m = .slow
      · obtain ⟨a, hphase⟩ := exists_slowPhase state hstart hlast
        refine .inr ⟨a, m, ⟨hphase, hout⟩, Nat.lt_succ_self m, fun k hk hkm => ?_⟩
        have heq : k = m + 1 := by omega
        rw [heq]
        exact hout
      · rcases ih hlast with hnone | ⟨a, n, hstay, hnm, hsince⟩
        · refine .inl fun k hk => ?_
          rcases Nat.lt_or_eq_of_le hk with hlt | rfl
          · exact hnone k (Nat.le_of_lt_succ hlt)
          · exact hout
        · refine .inr ⟨a, n, hstay, Nat.lt_succ_of_lt hnm, fun k hk hkm => ?_⟩
          rcases Nat.lt_or_eq_of_le hkm with hlt | rfl
          · exact hsince k hk (Nat.le_of_lt_succ hlt)
          · exact hout

namespace StateCtrl

/-- The counter goes through the ROM values, one at a time and to the last one. -/
structure Complete (r : Nat → StateCtrl rom) (a n : Nat) : Prop where
  first : (r a).rRomCnt = 0
  step : ∀ k, a ≤ k → k < n →
    (r (k + 1)).rRomCnt = (r k).rRomCnt ∨ (r (k + 1)).rRomCnt = (r k).rRomCnt + 1
  last : (r n).rRomCnt = 100

def EveryComplete (r : Nat → StateCtrl rom) : Prop :=
  ∀ a n, SlowStay (fun t => (r t).rState) a n → Complete r a n

section Stays

variable (v : HomingVariant) (lineRom : rom.State) (inp : Nat → Keys)

/-- Between two edges of the ROM clock its registers stay. -/
theorem run_kept {m n : Nat} (hmn : m ≤ n) (hquiet : ∀ k, m ≤ k → k < n → k % c40ms ≠ 0) :
    (run v lineRom inp n).rRomCnt = (run v lineRom inp m).rRomCnt ∧
    (run v lineRom inp n).rSet = (run v lineRom inp m).rSet := by
  induction n, hmn using Nat.le_induction with
  | base => exact ⟨rfl, rfl⟩
  | succ n hmn ih =>
      have hlow : ¬ (run v lineRom inp n).romRise = true := by
        rw [run_romRise]
        exact hquiet n hmn (Nat.lt_succ_self n)
      rw [run_succ, clock_rRomCnt, clock_rSet, if_neg hlow, if_neg hlow]
      exact ih fun k hmk hkn => hquiet k hmk (Nat.lt_succ_of_lt hkn)

/-- An edge of the ROM clock out of `SLOW` clears the counter, and it stays cleared. -/
theorem run_cleared {p n : Nat} (hedge : p % c40ms = 0) (hpn : p < n)
    (hout : ∀ k, p < k → k ≤ n → (run v lineRom inp k).rState ≠ .slow) :
    (run v lineRom inp n).rRomCnt = 0 := by
  induction n, hpn using Nat.le_induction with
  | base =>
      have hnext := hout (p + 1) (Nat.lt_succ_self p) (Nat.le_refl _)
      rw [run_succ, clock_rState] at hnext
      rw [run_succ, clock_rRomCnt, if_pos ((run_romRise v lineRom inp p).mpr hedge),
        if_neg hnext]
  | succ n hpn ih =>
      have hnext := hout (n + 1) (by omega) (Nat.le_refl _)
      rw [run_succ, clock_rState] at hnext
      rw [run_succ, clock_rRomCnt, if_neg hnext, ih fun k hk hkn => hout k hk (by omega)]
      exact ite_self 0

theorem run_unset_of_cleared {p n : Nat} (hedge : p % c40ms = 0) (hpn : p < n)
    (hzero : ∀ k, p ≤ k → k < n → (run v lineRom inp k).rRomCnt = 0) :
    (run v lineRom inp n).rSet = false := by
  have hunset (k : Nat) (hk : (run v lineRom inp k).rRomCnt = 0) :
      decide ((run v lineRom inp k).rRomCnt = 100) = false := by
    rw [hk]
    rfl
  induction n, hpn using Nat.le_induction with
  | base =>
      rw [run_succ, clock_rSet, if_pos ((run_romRise v lineRom inp p).mpr hedge)]
      exact hunset p (hzero p (Nat.le_refl p) (Nat.lt_succ_self p))
  | succ n hpn ih =>
      rw [run_succ, clock_rSet, hunset n (hzero n (by omega) (Nat.lt_succ_self n)),
        ih fun k hk hkn => hzero k hk (by omega)]
      exact ite_self false

theorem run_slow_step {k : Nat} (hnext : (run v lineRom inp (k + 1)).rState = .slow) :
    (run v lineRom inp (k + 1)).rRomCnt = (run v lineRom inp k).rRomCnt ∨
    (run v lineRom inp (k + 1)).rRomCnt = (run v lineRom inp k).rRomCnt + 1 := by
  have hle := (run_counting v lineRom inp k).le
  rw [run_succ, clock_rState] at hnext
  rw [run_succ, clock_rRomCnt, if_pos hnext]
  split
  · split <;> omega
  · exact .inl rfl

variable {v lineRom inp} {a n : Nat}

theorem SlowStay.set (h : SlowStay (fun t => (run v lineRom inp t).rState) a n) :
    (run v lineRom inp n).rSet = true := by
  by_contra hlow
  exact h.ends (run_slow_succ v lineRom inp (h.slow n h.lt (Nat.le_refl n))
    (eq_false_of_ne_true hlow))

/-- A stay in whose first cycle the flag is up is over in that cycle. -/
theorem slowStay_of_set (hout : (run v lineRom inp a).rState ≠ .slow)
    (hslow : (run v lineRom inp (a + 1)).rState = .slow)
    (hset : (run v lineRom inp (a + 1)).rSet = true) :
    SlowStay (fun t => (run v lineRom inp t).rState) a (a + 1) where
  before := hout
  lt := Nat.lt_succ_self a
  slow := fun k hak hka => by
    have heq : k = a + 1 := by omega
    rw [heq]
    exact hslow
  ends := by
    intro hnext
    have hlow := (run_counting v lineRom inp (a + 1)).set_low v _ _ _ hslow hnext
    rw [hset] at hlow
    cases hlow

theorem not_complete_of_set (hout : (run v lineRom inp a).rState ≠ .slow)
    (hslow : (run v lineRom inp (a + 1)).rState = .slow)
    (hset : (run v lineRom inp (a + 1)).rSet = true) :
    ¬ EveryComplete (run v lineRom inp) := by
  intro h
  have hshort := h a (a + 1) (slowStay_of_set hout hslow hset)
  have hfirst := hshort.first
  have hlast := hshort.last
  rcases hshort.step a (Nat.le_refl a) (Nat.lt_succ_self a) with hstep | hstep
  · omega
  · omega

/-- A stay that finds neither the counter nor the flag left over is complete, and the edge
behind the last value ends it. -/
theorem SlowStay.complete (h : SlowStay (fun t => (run v lineRom inp t).rState) a n)
    (hzero : (run v lineRom inp a).rRomCnt = 0)
    (hunset : (run v lineRom inp (a + 1)).rSet = false) :
    Complete (run v lineRom inp) a n ∧ (n - 1) % c40ms = 0 := by
  have hset := SlowStay.set h
  have hlong : a + 1 < n := by
    refine Nat.lt_of_le_of_ne h.lt fun heq => ?_
    rw [← heq, hunset] at hset
    cases hset
  obtain ⟨p, rfl⟩ : ∃ p, n = p + 1 := ⟨n - 1, by omega⟩
  have hslow : (run v lineRom inp p).rState = .slow := h.slow p (by omega) (by omega)
  have hnext : (run v lineRom inp (p + 1)).rState = .slow := h.slow (p + 1) h.lt (Nat.le_refl _)
  have hlow : (run v lineRom inp p).rSet = false :=
    (run_counting v lineRom inp p).set_low v _ _ _ hslow hnext
  obtain ⟨hrise, hfull, -⟩ := (run_counting v lineRom inp p).of_set v _ _ _ hlow hset
  refine ⟨⟨hzero, fun k hak hkn => ?_, ?_⟩, (run_romRise v lineRom inp p).mp hrise⟩
  · exact run_slow_step v lineRom inp (h.slow (k + 1) (by omega) (by omega))
  · have hkept := run_slow_step v lineRom inp hnext
    have hle := (run_counting v lineRom inp (p + 1)).le
    omega

/-- Two edges of the ROM clock behind the last stay have cleared counter and flag. -/
theorem entered_of_apart (hapart : Apart fun t => (run v lineRom inp t).rState) (a : Nat) :
    ∀ n, SlowStay (fun t => (run v lineRom inp t).rState) a n →
      (run v lineRom inp a).rRomCnt = 0 ∧ (run v lineRom inp (a + 1)).rSet = false := by
  induction a using Nat.strong_induction_on with
  | _ a ih =>
      intro n hstay
      have hstart : (run v lineRom inp 0).rState ≠ .slow := by
        intro hidle
        cases hidle
      rcases exists_last_stay (fun t => (run v lineRom inp t).rState) hstart hstay.before with
        hnone | ⟨a', n', hprev, hlater, hsince⟩
      · obtain ⟨hzero, hunset⟩ := run_unset v lineRom inp hnone
        refine ⟨hzero, ?_⟩
        rw [run_succ, clock_rSet, hzero, hunset]
        exact ite_self false
      · obtain ⟨hzero', hunset'⟩ := ih a' (Nat.lt_trans hprev.lt hlater) n' hprev
        obtain ⟨-, hedge⟩ := SlowStay.complete hprev hzero' hunset'
        have hlate := hapart a' n' a hprev hlater hsince
          (hstay.slow (a + 1) (Nat.lt_succ_self a) hstay.lt)
        have hpos := hprev.lt
        have hcleared (k : Nat) (hk : n' - 1 + c40ms < k) (hka : k ≤ a) :
            (run v lineRom inp k).rRomCnt = 0 := by
          apply run_cleared v lineRom inp (p := n' - 1 + c40ms) _ hk
          · intro j hj hjk
            simp only [c40ms] at hj
            exact hsince j (by omega) (by omega)
          · rw [Nat.add_mod_right, hedge]
        constructor
        · apply hcleared a _ (Nat.le_refl a)
          simp only [c40ms] at hlate ⊢
          omega
        · apply run_unset_of_cleared v lineRom inp (p := n' - 1 + 2 * c40ms)
          · rw [Nat.add_mul_mod_self_right, hedge]
          · omega
          · intro k hk hka
            apply hcleared k _ (by omega)
            simp only [c40ms] at hk ⊢
            omega

/-- Up to the second edge behind it the flag of a complete stay is still up. -/
theorem set_of_close {m : Nat} (hedge : (n - 1) % c40ms = 0) (hpos : 0 < n)
    (hfull : (run v lineRom inp n).rRomCnt = 100) (hset : (run v lineRom inp n).rSet = true)
    (hnm : n ≤ m) (hclose : m < n + 2 * c40ms) : (run v lineRom inp m).rSet = true := by
  have hquiet (k : Nat) (hk : n ≤ k) (hkn : k < n - 1 + c40ms) : k % c40ms ≠ 0 := by
    simp only [c40ms] at hedge hkn ⊢
    omega
  by_cases hfirst : m ≤ n - 1 + c40ms
  · rw [(run_kept v lineRom inp hnm fun k hk hkm => hquiet k hk (by omega)).2, hset]
  · have hcnt : (run v lineRom inp (n - 1 + c40ms)).rRomCnt = 100 := by
      rw [(run_kept v lineRom inp (m := n) (by simp only [c40ms]; omega) hquiet).1, hfull]
    have hrise : (run v lineRom inp (n - 1 + c40ms)).romRise = true := by
      rw [run_romRise, Nat.add_mod_right, hedge]
    have hnext : (run v lineRom inp (n - 1 + c40ms + 1)).rSet = true := by
      rw [run_succ, clock_rSet, if_pos hrise, hcnt]
      rfl
    rw [← hnext]
    refine (run_kept v lineRom inp (by omega) fun k hk hkm => ?_).2
    simp only [c40ms] at hedge hk hclose ⊢
    omega

theorem apart_of_everyComplete (h : EveryComplete (run v lineRom inp)) :
    Apart fun t => (run v lineRom inp t).rState := by
  intro a n m hstay hnm hout hin
  by_contra hclose
  have hall := h a n hstay
  have hunset : (run v lineRom inp (a + 1)).rSet = false := by
    by_contra hset
    exact not_complete_of_set hstay.before (hstay.slow (a + 1) (Nat.lt_succ_self a) hstay.lt)
      (eq_true_of_ne_false hset) h
  obtain ⟨-, hedge⟩ := SlowStay.complete hstay hall.first hunset
  have hset := set_of_close hedge (Nat.zero_lt_of_lt hstay.lt) hall.last (SlowStay.set hstay)
    (Nat.le_succ_of_le (Nat.le_of_lt hnm)) (by omega : m + 1 < n + 2 * c40ms)
  exact not_complete_of_set (hout m hnm (Nat.le_refl m)) hin hset h

end Stays

/-- Every stay in `SLOW` is complete if and only if they are two periods of the ROM clock
apart. -/
theorem everyComplete_iff (v : HomingVariant) (lineRom : rom.State) (inp : Nat → Keys) :
    EveryComplete (run v lineRom inp) ↔ Apart fun t => (run v lineRom inp t).rState := by
  refine ⟨apart_of_everyComplete, fun hapart a n hstay => ?_⟩
  obtain ⟨hzero, hunset⟩ := entered_of_apart hapart a n hstay
  exact (SlowStay.complete hstay hzero hunset).1

/-- The start key and the zero switch are held for ever. -/
def held (_ : Nat) : Keys := ⟨true, true, false⟩

/-- With both held the first stay ends, and `SLOW` is entered again two cycles later. -/
theorem run_held (v : HomingVariant) (lineRom : rom.State) :
    ∃ n, SlowStay (fun t => (run v lineRom held t).rState) 1 n ∧
      (run v lineRom held (n + 1)).rState = .idle ∧
      (run v lineRom held (n + 2)).rState = .fast ∧
      (run v lineRom held (n + 3)).rState = .slow := by
  obtain ⟨u, hu, -, hset⟩ := exists_set v lineRom held (t := 2) rfl rfl
  obtain ⟨n, hn, hslow, hends⟩ := exists_event (n := 2)
    (p := fun t => (run v lineRom held t).rState = .slow)
    (e := fun t => (run v lineRom held (t + 1)).rState ≠ .slow)
    rfl (fun t _ _ hstay => not_not.mp hstay) (by
      by_contra hnone
      push Not at hnone
      have hlow := (run_counting v lineRom held (u + 1)).set_low v _ _ _
        (hnone u hu) (hnone (u + 1) (by omega))
      rw [hset] at hlow
      cases hlow)
  have hlast := hslow n hn (Nat.le_refl n)
  have hidle : (run v lineRom held (n + 1)).rState = .idle := by
    rw [run_succ, clock_rState, nextState, hlast] at hends ⊢
    cases hzero : (run v lineRom held n).rState2Zero with
    | true => rfl
    | false =>
        rw [hzero] at hends
        exact absurd rfl hends
  have hfast : (run v lineRom held (n + 2)).rState = .fast := by
    rw [run_succ, clock_rState, nextState, hidle]
    rfl
  refine ⟨n, ⟨⟨?_, hn, fun k hk hkn => hslow k hk hkn⟩, hends⟩, hidle, hfast, ?_⟩
  · intro hin
    cases hin
  · rw [run_succ, clock_rState, nextState, hfast]
    rfl

theorem everyComplete_held_false :
    ¬ EveryComplete (@run ⟨Unit, fun s _ => s, fun _ => 4000⟩ ⟨false, false⟩ () held) := by
  intro h
  obtain ⟨n, hstay, hidle, hfast, hslow⟩ :=
    @run_held ⟨Unit, fun s _ => s, fun _ => 4000⟩ ⟨false, false⟩ ()
  have hapart := apart_of_everyComplete h 1 n (n + 2) hstay (by omega) (fun k hk hkn => ?_) hslow
  · simp only [c40ms] at hapart
    omega
  · obtain rfl | rfl : k = n + 1 ∨ k = n + 2 := by omega
    · simp [hidle]
    · simp [hfast]

end StateCtrl

end CncCard
