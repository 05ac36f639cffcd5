import CncCard.Clocked.OneShot
import CncCard.Clocked.Trace
import Mathlib.Data.BitVec

/-!
The filter `filter_encode` in front of each encoder channel: a change of the input starts a
counter, and at its end the output takes the level that the input has had meanwhile. A
change that is seen while the counter is at its end clears the counter without starting it.
The registers of the input come out of the reset high and the output low, so an input that
is high from the start has no change that the output could take its level from.
-/

namespace CncCard
open Clocked

structure FilterEncode where
  filterCnt : BitVec 8
  pulsT : Bool
  pulsTt : Bool
  flagCnt : Bool
  filter : Bool

def filterCntEnd : BitVec 8 := 20

namespace FilterEncode

def reset : FilterEncode := ⟨0, true, true, false, false⟩

def pulsNeg (s : FilterEncode) : Bool := s.pulsTt && !s.pulsT

def pulsPos (s : FilterEncode) : Bool := !s.pulsTt && s.pulsT

def flag (s : FilterEncode) : Bool := s.filterCnt == filterCntEnd

end FilterEncode

def filterEncode (s : FilterEncode) (puls : Bool) : FilterEncode where
  pulsT := puls
  pulsTt := s.pulsT
  filterCnt :=
    if s.filterCnt = filterCntEnd ∨ s.pulsNeg ∨ s.pulsPos then 0
    else if s.flagCnt then s.filterCnt + 1
    else s.filterCnt
  flagCnt :=
    if s.filterCnt = filterCntEnd then false
    else if s.pulsNeg ∨ s.pulsPos then true
    else s.flagCnt
  filter := if s.flag then s.pulsTt else s.filter

namespace FilterEncode

def run (puls : Nat → Bool) : Nat → FilterEncode := trace filterEncode reset puls

/-- The level in the cycle before; the registers come out of the reset high. -/
def before (puls : Nat → Bool) : Nat → Bool
  | 0 => true
  | t + 1 => puls t

def changes (puls : Nat → Bool) (t : Nat) : Bool := puls t != before puls t

variable (puls : Nat → Bool)

theorem run_succ (t : Nat) : run puls (t + 1) = filterEncode (run puls t) (puls t) := rfl

theorem run_pulsT (t : Nat) : (run puls (t + 1)).pulsT = puls t := rfl

theorem run_pulsTt (t : Nat) : (run puls (t + 1)).pulsTt = before puls t := by
  cases t <;> rfl

theorem run_edge (t : Nat) :
    ((run puls (t + 1)).pulsNeg = true ∨ (run puls (t + 1)).pulsPos = true) ↔
      changes puls t = true := by
  rw [pulsNeg, pulsPos, run_pulsT, run_pulsTt, changes]
  cases puls t <;> cases before puls t <;> decide

theorem end_iff {timer : Option Nat} (h : ∀ k, timer = some k → k ≤ 20) :
    BitVec.ofNat 8 (timer.getD 0) = filterCntEnd ↔ timer = some 20 := by
  cases timer with
  | none => decide
  | some k =>
      have hk := h k rfl
      rw [Option.getD_some, filterCntEnd, ← BitVec.toNat_inj, BitVec.toNat_ofNat,
        Option.some.injEq]
      simp only [BitVec.reduceToNat]
      omega

theorem timer_le (t k : Nat) (h : oneShot 20 (changes puls) t = some k) : k ≤ 20 :=
  (oneShot_eq_some_iff.mp h).1

/-- The counter and its flag are a timer that the changes of the input start. -/
theorem run_counter (t : Nat) :
    (run puls (t + 1)).flagCnt = (oneShot 20 (changes puls) t).isSome ∧
      (run puls (t + 1)).filterCnt = BitVec.ofNat 8 ((oneShot 20 (changes puls) t).getD 0) := by
  induction t with
  | zero => exact ⟨rfl, rfl⟩
  | succ t ih =>
      obtain ⟨hflag, hcnt⟩ := ih
      have hend := end_iff (timer_le puls t)
      rw [← hcnt] at hend
      rw [run_succ, oneShot]
      simp only [filterEncode, hend, run_edge]
      by_cases hout : oneShot 20 (changes puls) t = some 20
      · simp only [hout, true_or, if_true]
        exact ⟨rfl, rfl⟩
      · simp only [hout, false_or, if_false]
        by_cases hedge : changes puls t = true
        · simp only [hedge, if_true]
          exact ⟨rfl, rfl⟩
        · simp only [hedge, hflag, hcnt]
          cases oneShot 20 (changes puls) t with
          | none => exact ⟨rfl, rfl⟩
          | some k => exact ⟨rfl, (BitVec.ofNat_add k 1).symm⟩

/-- The output takes over the level at the end of the counter. -/
theorem run_filter (t : Nat) : (run puls (t + 2)).filter =
    if oneShot 20 (changes puls) t = some 20 then before puls t else (run puls (t + 1)).filter := by
  have hend := end_iff (timer_le puls t)
  rw [← (run_counter puls t).2, ← beq_iff_eq] at hend
  simp only [run_succ puls (t + 1), filterEncode, flag, hend, run_pulsTt]

variable {puls}

theorem level_of_silent {a k : Nat} (hak : a ≤ k) (hsilent : Silent (changes puls) a (k + 1)) :
    puls k = puls a := by
  induction k, hak using Nat.le_induction with
  | base => rfl
  | succ k hak ih =>
      have hsame := hsilent (k + 1) (by omega) (by omega)
      rw [changes, bne_eq_false_iff_eq] at hsame
      rw [hsame]
      exact ih (hsilent.mono (by omega))

theorem level_of_none {k : Nat} (hnone : ∀ j, j ≤ k → changes puls j = false) :
    puls k = true := by
  induction k with
  | zero => exact bne_eq_false_iff_eq.mp (hnone 0 (Nat.le_refl 0))
  | succ k ih =>
      have hsame := hnone (k + 1) (Nat.le_refl _)
      rw [changes, bne_eq_false_iff_eq] at hsame
      rw [hsame]
      exact ih fun j hj => hnone j (Nat.le_succ_of_le hj)

/-- Before any change the output keeps the level of the reset. -/
theorem filter_of_none {t : Nat} (hnone : ∀ k, k < t → changes puls k = false) :
    (run puls (t + 1)).filter = false := by
  induction t with
  | zero => rfl
  | succ t ih =>
      have hbefore (k : Nat) (hk : k < t) : changes puls k = false :=
        hnone k (Nat.lt_succ_of_lt hk)
      have hrun : oneShot 20 (changes puls) t ≠ some 20 := by
        rw [oneShot_none hbefore]
        decide
      rw [run_filter, if_neg hrun]
      exact ih hbefore

/-- A change that starts the counter is in the output 23 cycles later. -/
theorem filter_of_change {c n : Nat} (hchange : changes puls c = true)
    (hstart : oneShot 20 (changes puls) c ≠ some 20)
    (hsilent : Silent (changes puls) c (c + 21 + n)) :
    (run puls (c + 23 + n)).filter = puls c := by
  induction n with
  | zero =>
      have hend := oneShot_runs hchange hstart hsilent (Nat.le_refl 20)
      have hstill := level_of_silent (k := c + 20) (Nat.le_add_right c 20) hsilent
      have hfilter := run_filter puls (c + 21)
      rw [if_pos hend] at hfilter
      exact hfilter.trans hstill
  | succ n ih =>
      have hquiet : oneShot 20 (changes puls) (c + 22 + n) ≠ some 20 :=
        oneShot_over (hsilent.mono (by omega)) (by omega)
      have hindex : c + 23 + (n + 1) = c + 22 + n + 2 := by omega
      have hindex' : c + 22 + n + 1 = c + 23 + n := by omega
      rw [hindex, run_filter, if_neg hquiet, hindex']
      exact ih (hsilent.mono (by omega))

/-- After a change that goes by the output stays at the old level. -/
theorem filter_of_missed {c n : Nat} (hmissed : Missed 20 (changes puls) c)
    (hsilent : Silent (changes puls) c (c + n)) :
    (run puls (c + 2 + n)).filter = !puls c := by
  rw [missed_iff] at hmissed
  induction n with
  | zero =>
      have hopposite : before puls c = !puls c := by
        have hchange := hmissed.1
        rw [changes] at hchange
        revert hchange
        cases puls c <;> cases before puls c <;> decide
      rw [Nat.add_zero, run_filter, if_pos hmissed.2, hopposite]
  | succ n ih =>
      have hquiet := oneShot_lost hmissed hsilent (by omega)
      have hindex : c + 2 + (n + 1) = c + (n + 1) + 2 := by omega
      have hindex' : c + (n + 1) + 1 = c + 2 + n := by omega
      rw [hindex, run_filter, if_neg hquiet, hindex']
      exact ih (hsilent.mono (by omega))

/-- Whenever the input has held a level for 26 cycles, the output has it. -/
def Follows (puls : Nat → Bool) : Prop :=
  ∀ t v, (∀ k, t ≤ k → k < t + 26 → puls k = v) → (run puls (t + 26)).filter = v

/-- An input that is high from the reset on has no change that the output could follow. -/
theorem low_of_follows (h : Follows puls) : ∃ k, k < 26 ∧ puls k = false := by
  by_contra hnone
  have hhigh (k : Nat) (hk : k < 26) : puls k = true :=
    eq_true_of_ne_false fun hlow => hnone ⟨k, hk, hlow⟩
  have hstill (k : Nat) (hk : k < 25) : changes puls k = false := by
    cases k with
    | zero => rw [changes, hhigh 0 (by omega)]; rfl
    | succ k => rw [changes, hhigh (k + 1) (by omega), before, hhigh k (by omega)]; rfl
  have hfilter := h 0 true fun k _ hk => hhigh k (by omega)
  rw [filter_of_none hstill] at hfilter
  cases hfilter

theorem change_of_follows (h : Follows puls) {c : Nat} (hmissed : Missed 20 (changes puls) c) :
    ∃ k, c < k ∧ k < c + 26 ∧ changes puls k = true := by
  by_contra hnone
  have hsilent : Silent (changes puls) c (c + 26) := fun k hck hk =>
    eq_false_of_ne_true fun hchange => hnone ⟨k, hck, hk, hchange⟩
  have hfilter := h c (puls c) fun k hck hk => level_of_silent hck (hsilent.mono hk)
  have hstuck := filter_of_missed (n := 24) hmissed (hsilent.mono (by omega))
  rw [hfilter] at hstuck
  exact absurd hstuck (by cases puls c <;> decide)

theorem changes_of_held {t : Nat} {v : Bool} (hheld : ∀ k, t ≤ k → k < t + 26 → puls k = v)
    {k : Nat} (htk : t < k) (hk : k < t + 26) : changes puls k = false := by
  obtain ⟨j, rfl⟩ := Nat.exists_eq_succ_of_ne_zero (Nat.ne_zero_of_lt htk)
  rw [changes, hheld _ (by omega) hk, before, hheld j (by omega) (by omega), bne_self_eq_false]

/-- The last change before the level is held has started the counter. -/
theorem follows_of_changes (hlow : ∃ k, k < 26 ∧ puls k = false)
    (hmissed : ∀ c, Missed 20 (changes puls) c → ∃ k, c < k ∧ k < c + 26 ∧ changes puls k = true) :
    Follows puls := by
  intro t v hheld
  obtain hnone | ⟨c, hc, hchange, hsilent⟩ := exists_last (changes puls) (t + 1)
  · obtain ⟨low, hbound, hlevel⟩ := hlow
    have hhigh : puls low = true := level_of_none fun j hj => by
      cases Nat.lt_or_ge j (t + 1) with
      | inl hlt => exact hnone j hlt
      | inr hge => exact changes_of_held hheld hge (by omega)
    rw [hhigh] at hlevel
    cases hlevel
  · have hall : Silent (changes puls) c (t + 26) := fun k hck hk => by
      cases Nat.lt_or_ge k (t + 1) with
      | inl hlt => exact hsilent k hck hlt
      | inr hge => exact changes_of_held hheld hge hk
    have hlevel : puls c = v := by
      rw [← level_of_silent (Nat.le_of_lt_succ hc) hsilent]
      exact hheld t (Nat.le_refl t) (by omega)
    have hstart : oneShot 20 (changes puls) c ≠ some 20 := fun hend => by
      obtain ⟨k, hck, hk, hnext⟩ := hmissed c (missed_iff.mpr ⟨hchange, hend⟩)
      rw [hall k hck (by omega)] at hnext
      cases hnext
    obtain ⟨n, hn⟩ := Nat.exists_eq_add_of_le (show c + 23 ≤ t + 26 by omega)
    rw [hn, filter_of_change hchange hstart (hall.mono (by omega)), hlevel]

/-- The output follows the input if and only if the input is not high from the reset on for
26 cycles, and every change that goes by is followed by another within 25 cycles. -/
theorem follows_iff_missed (puls : Nat → Bool) :
    Follows puls ↔ (∃ k, k < 26 ∧ puls k = false) ∧
      ∀ c, Missed 20 (changes puls) c → ∃ k, c < k ∧ k < c + 26 ∧ changes puls k = true :=
  ⟨fun h => ⟨low_of_follows h, fun _ hmissed => change_of_follows h hmissed⟩,
    fun h => follows_of_changes h.1 h.2⟩

/-- High for 21 cycles and low afterwards. -/
def high21 (t : Nat) : Bool := decide (5 ≤ t ∧ t < 26)

/-- The output stays high. -/
theorem follows_high21_false : ¬ Follows high21 := by
  intro h
  have hlow (k : Nat) (hk : 26 ≤ k) (_ : k < 26 + 26) : high21 k = false :=
    decide_eq_false (by omega)
  exact absurd (h 26 false hlow) (by decide +kernel)

/-- The output changes at the end of a cycle. -/
def Switches (puls : Nat → Bool) (t : Nat) : Prop :=
  (run puls (t + 1)).filter ≠ (run puls t).filter

/-- The output changes 22 cycles after a change that starts the counter, if the input has
not changed meanwhile. -/
theorem switches_cases {t : Nat} (h : Switches puls t) :
    ∃ c, t = c + 22 ∧ oneShot 20 (changes puls) (c + 21) = some 20 ∧
      Silent (changes puls) c (c + 21) ∧ (run puls (t + 1)).filter = puls c := by
  cases t with
  | zero => exact absurd rfl h
  | succ t =>
      have hnext := run_filter puls t
      split at hnext
      · next hend =>
          obtain ⟨-, c, rfl, -, -, hsilent⟩ := oneShot_eq_some_iff.mp hend
          refine ⟨c, rfl, hend, hsilent, hnext.trans ?_⟩
          exact level_of_silent (k := c + 20) (Nat.le_add_right c 20) hsilent
      · exact absurd hnext h

/-- What the output shows of the input: it changes only to a level that the input samples
have had for 21 cycles, its changes are at least 21 cycles apart, and while a pulse of less
than 20 cycles goes through the registers it does not change to the level of the pulse. -/
structure Suppresses (puls : Nat → Bool) : Prop where
  stable : ∀ t, Switches puls t → 21 < t ∧
    ∀ k, t ≤ k + 21 → k < t → (run puls k).pulsT = (run puls (t + 1)).filter
  apart : ∀ t u, t < u → Switches puls t → Switches puls u → t + 21 ≤ u
  short : ∀ a b v, a < b → b < a + 20 → before puls a = !v →
    (∀ k, a ≤ k → k < b → puls k = v) → puls b = !v →
    ∀ t, a < t → t ≤ b + 22 → Switches puls t → (run puls (t + 1)).filter ≠ v

theorem suppresses (puls : Nat → Bool) : Suppresses puls where
  stable t h := by
    obtain ⟨c, rfl, -, hsilent, hlevel⟩ := switches_cases h
    refine ⟨by omega, fun k hlow hhigh => ?_⟩
    obtain ⟨j, rfl⟩ := Nat.exists_eq_succ_of_ne_zero (Nat.ne_zero_of_lt (show c < k by omega))
    rw [hlevel]
    exact level_of_silent (by omega) (hsilent.mono (by omega))
  apart t u htu ht hu := by
    obtain ⟨c, rfl, hend, -, -⟩ := switches_cases ht
    obtain ⟨c', rfl, hend', -, -⟩ := switches_cases hu
    have hlater := oneShot_ends_apart (by omega) hend hend'
    omega
  short a b v hab hshort hbefore hpulse hafter t hat htb h hshown := by
    obtain ⟨c, rfl, -, hsilent, hlevel⟩ := switches_cases h
    rw [hlevel] at hshown
    have hin (k : Nat) (hck : c ≤ k) (hk : k < c + 21) : puls k = v :=
      (level_of_silent hck (hsilent.mono (by omega))).trans hshown
    -- the 21 cycles reach over one end of the pulse
    cases Nat.lt_or_ge c a with
    | inl hca =>
        obtain ⟨j, rfl⟩ := Nat.exists_eq_succ_of_ne_zero (Nat.ne_zero_of_lt hca)
        have hlevel' := hin j (by omega) (by omega)
        rw [before, hlevel'] at hbefore
        exact absurd hbefore (by cases v <;> decide)
    | inr hac =>
        rw [hin b (by omega) (by omega)] at hafter
        exact absurd hafter (by cases v <;> decide)

end FilterEncode

end CncCard
