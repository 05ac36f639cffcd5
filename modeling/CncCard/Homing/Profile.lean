import CncCard.Homing.Deceleration
import CncCard.Homing.StepPulse

/-!
The deceleration of a homing, with the ROM contents of the card. The counter runs through the
hundred words, and behind it stand the registers of `state_ctrl` and of `line_rom_ip`, each an
edge of the ROM clock later than the one before it.
-/

namespace CncCard
open Clocked

/-- The words of `s_rom.mif`. -/
def sRomWords : List Nat :=
  [4000, 4001, 4004, 4009, 4016, 4024, 4033, 4045, 4058, 4073, 4089, 4108, 4128, 4151, 4175,
    4201, 4230, 4260, 4293, 4329, 4366, 4407, 4450, 4496, 4545, 4597, 4653, 4712, 4775, 4842,
    4914, 4990, 5070, 5157, 5249, 5347, 5452, 5564, 5685, 5813, 5952, 6101, 6261, 6435, 6622,
    6825, 7047, 7288, 7552, 7843, 8163, 8503, 8865, 9250, 9661, 10101, 10570, 11074, 11614,
    12195, 12820, 13495, 14224, 15015, 15873, 16806, 17825, 18939, 20161, 21505, 22988, 24630,
    26455, 28490, 30769, 33333, 36231, 39525, 43290, 47619, 52631, 58479, 65359, 73529, 83333,
    95238, 109890, 128205, 151515, 181818, 222222, 277777, 357142, 476190, 666666, 1000000,
    1666666, 3333333, 10000000, 10000000]

/-- `line_rom_ip` has 128 words, of which the file sets a hundred. -/
def sRom (a : Nat) : BitVec 26 := BitVec.ofNat 26 (sRomWords.getD a 0)

/-- The words never get smaller. -/
theorem sRom_mono {a b : Nat} (hab : a ≤ b) (hb : b < 100) :
    (sRom a).toNat ≤ (sRom b).toNat := by
  have hnext : ∀ k < 99, (sRom k).toNat ≤ (sRom (k + 1)).toNat := by decide +kernel
  induction b, hab using Nat.le_induction with
  | base => exact Nat.le_refl _
  | succ b hab ih => exact Nat.le_trans (ih (by omega)) (hnext b (by omega))

namespace StateCtrl

/-- The edges of the ROM clock from cycle `a` on and before `t`. -/
def romEdges (a t : Nat) : Nat := (t + (c40ms - 1)) / c40ms - (a + (c40ms - 1)) / c40ms

variable {contents : Nat → BitVec 26}

/-- What `k` edges of the ROM clock out of `SLOW` have brought back to the first word. -/
structure Warm (k : Nat) (s : StateCtrl (lineRomIp contents)) : Prop where
  count : 1 ≤ k → s.rRomCnt = 0
  address : 2 ≤ k → s.rRomEna = true ∧ s.rRomAddra = 0 ∧ s.rSet = false
  latched : 3 ≤ k → LineRomIp.address s.lineRom = 0
  output : 4 ≤ k → LineRomIp.q s.lineRom = contents 0

/-- The registers behind the counter, each one word later. -/
structure Piped (s : StateCtrl (lineRomIp contents)) : Prop where
  enabled : s.rRomEna = true
  address : s.rRomAddra = s.rRomCnt - 1
  latched : LineRomIp.address s.lineRom = s.rRomCnt - 2
  output : LineRomIp.q s.lineRom = contents (s.rRomCnt - 3)

section Step

variable {s : StateCtrl (lineRomIp contents)} (v : HomingVariant) (start b c : Bool)

theorem Warm.clock {k : Nat} (h : Warm k s) (hout : s.nextState start b c ≠ .slow) :
    Warm (k + s.romRise.toNat) (s.clock v start b c) := by
  cases hrise : s.romRise with
  | false =>
      refine ⟨?_, ?_, ?_, ?_⟩
      · rw [clock_rRomCnt, hrise]
        exact h.count
      · rw [clock_rRomEna, clock_rRomAddra, clock_rSet, hrise]
        exact h.address
      · rw [clock_lineRom, hrise]
        exact h.latched
      · rw [clock_lineRom, hrise]
        exact h.output
  | true =>
      refine ⟨fun _ => ?_, fun hk => ?_, fun hk => ?_, fun hk => ?_⟩
      · rw [clock_rRomCnt, hrise, if_pos rfl, if_neg hout]
      · have hcount := h.count (Nat.le_of_succ_le_succ hk)
        rw [clock_rRomEna, clock_rRomAddra, clock_rSet, hrise, hcount]
        exact ⟨rfl, rfl, rfl⟩
      · obtain ⟨hena, haddra, -⟩ := h.address (Nat.le_of_succ_le_succ hk)
        rw [clock_lineRom, hrise, hena, haddra]
        rfl
      · obtain ⟨hena, -, -⟩ := h.address (Nat.le_of_succ_le (Nat.le_of_succ_le_succ hk))
        rw [clock_lineRom, hrise, hena]
        exact congrArg contents (h.latched (Nat.le_of_succ_le_succ hk))

theorem Warm.piped (h : Warm 4 s) : s.Piped := by
  obtain ⟨hena, haddra, -⟩ := h.address (by decide)
  have hcount := h.count (by decide)
  refine ⟨hena, ?_, ?_, ?_⟩
  · rw [haddra, hcount]
  · rw [h.latched (by decide), hcount]
  · rw [h.output (by decide), hcount]

/-- In `SLOW` an edge that finds another word takes every register one word on. -/
theorem Piped.clock (h : s.Piped) (hmore : s.romRise = true → s.rRomCnt < 100)
    (hslow : s.nextState start b c = .slow) : (s.clock v start b c).Piped ∧
      (s.clock v start b c).rRomCnt = s.rRomCnt + s.romRise.toNat := by
  cases hrise : s.romRise with
  | false =>
      have hcount : (s.clock v start b c).rRomCnt = s.rRomCnt := by
        rw [clock_rRomCnt, hrise]
        rfl
      refine ⟨⟨?_, ?_, ?_, ?_⟩, hcount⟩
      · rw [clock_rRomEna, hrise]
        exact h.enabled
      · rw [clock_rRomAddra, hcount, hrise]
        exact h.address
      · rw [clock_lineRom, hcount, hrise]
        exact h.latched
      · rw [clock_lineRom, hcount, hrise]
        exact h.output
  | true =>
      have hlt := hmore hrise
      have hcount : (s.clock v start b c).rRomCnt = s.rRomCnt + 1 := by
        rw [clock_rRomCnt, hrise, if_pos rfl, if_pos hslow, if_pos hlt]
        omega
      refine ⟨⟨?_, ?_, ?_, ?_⟩, hcount⟩
      · rw [clock_rRomEna, hrise, if_pos rfl, decide_eq_true hlt]
      · rw [clock_rRomAddra, hcount, hrise]
        rfl
      · rw [clock_lineRom, hcount, hrise, h.enabled]
        exact h.address
      · rw [clock_lineRom, hcount, hrise, h.enabled]
        exact congrArg contents h.latched

end Step

/-- `SLOW` has not been entered for four periods of the ROM clock. -/
def Rested (state : Nat → HomingState) (a : Nat) : Prop :=
  4 * c40ms ≤ a ∧ ∀ k, a - 4 * c40ms ≤ k → k ≤ a → state k ≠ .slow

/-- The stay in `SLOW` behind `a` takes the step period from that of `FAST` to the last word but
two, and never makes a step shorter than one before it. -/
structure Decelerates (r : Nat → StateCtrl (lineRomIp sRom)) (a n : Nat) : Prop
    extends SlowStay (fun t => (r t).rState) a n where
  period : ∀ t, a ≤ t → t < n → (r (t + 1)).rCntData = (sRom (romEdges a t - 3)).toNat
  slower : ∀ t u, a < t → t ≤ u → u ≤ n → (r t).rCntData ≤ (r u).rCntData
  first : (r (a + 1)).rCntData = 4000
  last : (r n).rCntData = 3333333
  edges : romEdges a n = 101

theorem romEdges_self (a : Nat) : romEdges a a = 0 := Nat.sub_self _

theorem romEdges_succ {a t : Nat} (hat : a ≤ t) :
    romEdges a (t + 1) = romEdges a t + (decide (t % c40ms = 0)).toNat := by
  by_cases hedge : t % c40ms = 0
  · rw [decide_eq_true hedge]
    simp only [romEdges, c40ms, Bool.toNat_true] at hedge ⊢
    omega
  · rw [decide_eq_false hedge]
    simp only [romEdges, c40ms, Bool.toNat_false] at hedge ⊢
    omega

theorem romEdges_mono {a t u : Nat} (htu : t ≤ u) : romEdges a t ≤ romEdges a u := by
  simp only [romEdges, c40ms]
  omega

section Run

variable {v : HomingVariant} {inp : Nat → Keys} {a n : Nat}

theorem runIp_romRise (t : Nat) :
    (runIp contents v inp t).romRise = decide (t % c40ms = 0) := by
  rw [Bool.eq_iff_iff, decide_eq_true_iff]
  exact @run_romRise (lineRomIp contents) v LineRomIp.powerUp inp t

theorem runIp_warm {t : Nat} (hat : a ≤ t)
    (hout : ∀ k, a < k → k ≤ t → (runIp contents v inp k).rState ≠ .slow) :
    Warm (romEdges a t) (runIp contents v inp t) := by
  induction t, hat using Nat.le_induction with
  | base =>
      rw [romEdges_self]
      exact ⟨nofun, nofun, nofun, nofun⟩
  | succ t hat ih =>
      have hnext := hout (t + 1) (Nat.lt_succ_of_le hat) (Nat.le_refl _)
      rw [runIp_succ, clock_rState] at hnext
      have hrise : (runIp contents v inp t).romRise = decide (t % c40ms = 0) := runIp_romRise t
      rw [romEdges_succ hat, ← hrise, runIp_succ]
      exact (ih fun k hak hkt => hout k hak (Nat.le_succ_of_le hkt)).clock v _ _ _ hnext

theorem warm_of_rested (hrested : Rested (fun t => (runIp contents v inp t).rState) a) :
    Warm 4 (runIp contents v inp a) := by
  obtain ⟨hlate, hout⟩ := hrested
  have hfour : romEdges (a - 4 * c40ms) a = 4 := by
    simp only [romEdges, c40ms] at hlate ⊢
    omega
  rw [← hfour]
  exact runIp_warm (Nat.sub_le _ _) fun k hk hka => hout k (Nat.le_of_lt hk) hka

theorem runIp_counting (t : Nat) : Counting (runIp contents v inp t) :=
  @run_counting (lineRomIp contents) v LineRomIp.powerUp inp t

/-- In a stay the reference is not set before its last cycle. -/
theorem stay_unset (hstay : SlowPhase (fun t => (runIp contents v inp t).rState) a n)
    {t : Nat} (hat : a < t) (htn : t < n) : (runIp contents v inp t).rSet = false := by
  have hnext := hstay.slow (t + 1) (Nat.lt_succ_of_lt hat) htn
  rw [runIp_succ] at hnext
  exact (runIp_counting t).set_low v _ _ _ (hstay.slow t hat (Nat.le_of_lt htn)) hnext

theorem stay_piped (hstay : SlowPhase (fun t => (runIp contents v inp t).rState) a n)
    (hwarm : Warm 4 (runIp contents v inp a)) {t : Nat} (hat : a ≤ t) (htn : t < n) :
    (runIp contents v inp t).Piped ∧ (runIp contents v inp t).rRomCnt = romEdges a t := by
  induction t, hat using Nat.le_induction with
  | base =>
      rw [romEdges_self]
      exact ⟨hwarm.piped, hwarm.count (by decide)⟩
  | succ t hat ih =>
      obtain ⟨hpiped, hcount⟩ := ih (Nat.lt_of_succ_lt htn)
      have hin := hstay.slow (t + 1) (Nat.lt_succ_of_le hat) (Nat.le_of_lt htn)
      have hlow := stay_unset hstay (Nat.lt_succ_of_le hat) htn
      rw [runIp_succ, clock_rSet] at hlow
      rw [runIp_succ, clock_rState] at hin
      have hmore (hrise : (runIp contents v inp t).romRise = true) :
          (runIp contents v inp t).rRomCnt < 100 := by
        rw [if_pos hrise, decide_eq_false_iff_not] at hlow
        exact Nat.lt_of_le_of_ne (runIp_counting t).le hlow
      obtain ⟨hnext, hstep⟩ := hpiped.clock v _ _ _ hmore hin
      rw [runIp_succ, romEdges_succ hat, ← hcount, hstep, runIp_romRise]
      exact ⟨hnext, rfl⟩

theorem stay_period (hstay : SlowPhase (fun t => (runIp contents v inp t).rState) a n)
    (hwarm : Warm 4 (runIp contents v inp a))
    (hfirst : (runIp contents v inp (a + 1)).rCntData = (contents 0).toNat) {t : Nat}
    (hat : a ≤ t) (htn : t < n) :
    (runIp contents v inp (t + 1)).rCntData = (contents (romEdges a t - 3)).toNat := by
  cases Nat.lt_or_eq_of_le hat with
  | inl hlt =>
      obtain ⟨hpiped, hcount⟩ := stay_piped hstay hwarm hat htn
      rw [runIp_succ, clock_rCntData, hstay.slow t hlt (Nat.le_of_lt htn), ← hcount]
      exact congrArg BitVec.toNat hpiped.output
  | inr heq =>
      rw [← heq, romEdges_self]
      exact hfirst

/-- The stay ends with the edge behind the hundredth. -/
theorem stay_end (hstay : SlowStay (fun t => (runIp contents v inp t).rState) a n)
    (hwarm : Warm 4 (runIp contents v inp a)) :
    ∃ m, n = m + 1 ∧ a < m ∧ m % c40ms = 0 ∧ romEdges a m = 100 := by
  obtain ⟨m, rfl⟩ : ∃ m, n = m + 1 := ⟨n - 1, by have := hstay.lt; omega⟩
  have hset : (runIp contents v inp (m + 1)).rSet = true :=
    @SlowStay.set (lineRomIp contents) _ _ _ _ _ hstay
  have ham : a ≤ m := Nat.le_of_lt_succ hstay.lt
  have hlow : (runIp contents v inp m).rSet = false := by
    cases Nat.lt_or_eq_of_le ham with
    | inl hlt => exact stay_unset hstay.toSlowPhase hlt (Nat.lt_succ_self m)
    | inr heq => exact heq ▸ (hwarm.address (by decide)).2.2
  rw [runIp_succ] at hset
  obtain ⟨hrise, hfull, hslow⟩ := (runIp_counting m).of_set v _ _ _ hlow hset
  have hne : a ≠ m := fun heq => hstay.before (heq ▸ hslow)
  rw [runIp_romRise, decide_eq_true_iff] at hrise
  rw [(stay_piped hstay.toSlowPhase hwarm ham (Nat.lt_succ_self m)).2] at hfull
  exact ⟨m, rfl, Nat.lt_of_le_of_ne ham hne, hrise, hfull⟩

/-- Each entry into `SLOW` leads to a stay that ends. -/
theorem exists_slowStay (hout : (runIp contents v inp a).rState ≠ .slow)
    (hin : (runIp contents v inp (a + 1)).rState = .slow) :
    ∃ n, SlowStay (fun t => (runIp contents v inp t).rState) a n := by
  obtain ⟨n, hn, hslow, hends⟩ := exists_event (n := a + 1)
    (p := fun t => (runIp contents v inp t).rState = .slow)
    (e := fun t => (runIp contents v inp (t + 1)).rState ≠ .slow)
    hin (fun t _ _ hstay => not_not.mp hstay) (by
      by_contra hnone
      push Not at hnone
      have hstay (m : Nat) : SlowPhase (fun t => (runIp contents v inp t).rState) a (a + 1 + m) :=
        ⟨hout, by omega, fun k hak _ => by
          cases Nat.lt_or_eq_of_le (Nat.succ_le_of_lt hak) with
          | inl hlt => exact Nat.sub_add_cancel (by omega : 1 ≤ k) ▸ hnone (k - 1) (by omega)
          | inr heq => exact heq ▸ hin⟩
      have hlow (t : Nat) (hat : a < t) : (runIp contents v inp t).rSet = false :=
        stay_unset (hstay (t - a)) hat (by omega)
      obtain ⟨u, hu, -, hset⟩ := @exists_set (lineRomIp contents) v LineRomIp.powerUp inp
        (a + 1) hin (hlow _ (Nat.lt_succ_self a))
      exact Bool.false_ne_true ((hlow (u + 1) (by omega)).symm.trans hset))
  exact ⟨n, ⟨hout, hn, fun k hak hkn => hslow k hak hkn⟩, hends⟩

end Run

/-- In every run with the words of the card, an entry into `SLOW` behind a rest leads to a
deceleration. -/
theorem decelerates_of_rested (v : HomingVariant) (inp : Nat → Keys) {a : Nat}
    (hrested : Rested (fun t => (runIp sRom v inp t).rState) a)
    (hin : (runIp sRom v inp (a + 1)).rState = .slow) :
    ∃ n, Decelerates (runIp sRom v inp) a n := by
  have hout : (runIp sRom v inp a).rState ≠ .slow := hrested.2 a (Nat.sub_le _ _) (Nat.le_refl a)
  have hwarm := warm_of_rested hrested
  obtain ⟨n, hstay⟩ := exists_slowStay hout hin
  obtain ⟨m, rfl, ham, hedge, hfull⟩ := stay_end hstay hwarm
  have hfirst : (runIp sRom v inp (a + 1)).rCntData = 4000 := by
    rw [runIp_succ, clock_rCntData]
    split
    · next hslow => exact absurd hslow hout
    · rfl
  have hperiod (t : Nat) (hat : a ≤ t) (htm : t < m + 1) :
      (runIp sRom v inp (t + 1)).rCntData = (sRom (romEdges a t - 3)).toNat :=
    stay_period hstay.toSlowPhase hwarm (hfirst.trans (by decide)) hat htm
  refine ⟨m + 1, hstay, hperiod, ?_, hfirst, ?_, ?_⟩
  · intro t u hat htu hum
    obtain ⟨t, rfl⟩ : ∃ k, t = k + 1 := ⟨t - 1, by omega⟩
    obtain ⟨u, rfl⟩ : ∃ k, u = k + 1 := ⟨u - 1, by omega⟩
    have hle := romEdges_mono (a := a) (Nat.le_of_succ_le_succ htu)
    have hlast := romEdges_mono (a := a) (Nat.le_of_succ_le_succ hum)
    rw [hperiod t (by omega) (by omega), hperiod u (by omega) (by omega)]
    exact sRom_mono (Nat.sub_le_sub_right hle 3) (by omega)
  · rw [hperiod m (Nat.le_of_lt ham) (Nat.lt_succ_self m), hfull]
    decide
  · rw [romEdges_succ (Nat.le_of_lt ham), hfull, decide_eq_true hedge]
    rfl

/-- The start key and the zero switch are closed from `start` on. -/
def heldFrom (start t : Nat) : Keys := ⟨decide (start ≤ t), decide (start ≤ t), false⟩

theorem heldFrom_idle (v : HomingVariant) {start t : Nat} (ht : t ≤ start) :
    (runIp sRom v (heldFrom start) t).rState = .idle := by
  induction t with
  | zero => rfl
  | succ t ih =>
      rw [runIp_succ, clock_rState, nextState, ih (Nat.le_of_succ_le ht), heldFrom,
        decide_eq_false (Nat.not_le.mpr ht)]
      rfl

theorem decelerates_heldFrom :
    ∃ n, Decelerates (runIp sRom ⟨false, false⟩ (heldFrom (4 * c40ms)))
      (4 * c40ms + 1) n := by
  have hfast : (runIp sRom ⟨false, false⟩ (heldFrom (4 * c40ms)) (4 * c40ms + 1)).rState =
      .fast := by
    rw [runIp_succ, clock_rState, nextState, heldFrom_idle _ (Nat.le_refl _), heldFrom,
      decide_eq_true (Nat.le_refl _)]
    rfl
  refine decelerates_of_rested _ _ ⟨Nat.le_succ _, fun k _ hk hslow => ?_⟩ ?_
  · cases Nat.lt_or_eq_of_le hk with
    | inl hlt =>
        have hidle := heldFrom_idle ⟨false, false⟩ (Nat.le_of_lt_succ hlt)
        cases hidle.symm.trans hslow
    | inr heq =>
        rw [heq] at hslow
        cases hfast.symm.trans hslow
  · rw [runIp_succ, clock_rState, nextState, hfast, heldFrom,
      decide_eq_true (Nat.le_succ _)]
    rfl

end StateCtrl

end CncCard
