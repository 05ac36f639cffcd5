import CncCard.Clocked.Edges
import CncCard.Homing.Retract
import CncCard.Homing.SlowPhase

/-!
The step pulses of a homing. The counter of the generator runs on whatever the state machine
does, so a move finds it anywhere in its period, and a new ROM value finds it anywhere in the
old one. The pulses are regular as long as none begins behind the start of a period.
-/

namespace CncCard
open Clocked

/-- The registers of `line_rom_ip`. -/
structure LineRomIp where
  address : Nat
  q : BitVec 26

/-- `line_rom_ip` with these contents: the address and the output are registered. -/
abbrev lineRomIp (contents : Nat → BitVec 26) : LineRom where
  State := LineRomIp
  clock s address := ⟨address, contents s.address⟩
  q := LineRomIp.q

def LineRomIp.powerUp : LineRomIp := ⟨0, 0⟩

namespace StateCtrl

/-- The pulse rises at most once in 4000 cycles, and it stays for 2000 cycles unless the
drive has come to `IDLE`. -/
structure Regular (r : Nat → StateCtrl rom) : Prop where
  apart : ∀ t u, t < u → rose (fun k => (r k).rPluse) t = true →
    rose (fun k => (r k).rPluse) u = true → t + 4000 ≤ u
  wide : ∀ t n, rose (fun k => (r k).rPluse) t = true →
    (∀ k, t ≤ k → k < t + n → (r k).rPluse = true) → (r (t + n)).rPluse = false →
    (r (t + n - 2)).rState ≠ .idle → 2000 ≤ n

/-- The step begins no pulse behind the start of a period, and cuts none short. -/
structure Smooth (s : StateCtrl rom) : Prop where
  begins : s.rPluse = false → s.rPluseZero = false → s.rCnt < s.rCntData / 2 → s.rCnt = 0
  holds : s.rPluse = true → s.rCnt < 2000 → 4000 ≤ s.rCntData

section Step

variable {rom : LineRom} (v : HomingVariant) (s : StateCtrl rom) (start b c : Bool)

theorem romEdge_rCnt : s.romEdge.rCnt = s.rCnt := rfl

theorem pulse_rCnt (old : StateCtrl rom) : (s.pulse old).rCnt =
    if old.rCnt < (old.rCntData + 2 ^ 32 - 1) % 2 ^ 32 then (old.rCnt + 1) % 2 ^ 26 else 0 := by
  unfold pulse
  with_reducible rfl

theorem clock_rCnt : (s.clock v start b c).rCnt =
    if s.rCnt < (s.rCntData + 2 ^ 32 - 1) % 2 ^ 32 then (s.rCnt + 1) % 2 ^ 26 else 0 := by
  rw [clock_eq]
  split
  · rw [romEdge_rCnt, pulse_rCnt]
  · rw [pulse_rCnt]

theorem clock_rPluse : (s.clock v start b c).rPluse =
    if s.rPluseZero then false else decide (s.rCnt < s.rCntData / 2) := by
  rw [clock_eq]
  cases s.romRise <;> rfl

theorem clock_rPluseZero : (s.clock v start b c).rPluseZero =
    match s.rState with
    | .idle => true
    | .unused _ => if v.defaultStops then true else s.rPluseZero
    | _ => false := by
  rw [clock_eq]
  cases s.romRise <;> rfl

theorem clock_rCntData : (s.clock v start b c).rCntData =
    match s.rState with
    | .slow => (rom.q s.lineRom).toNat
    | _ => 4000 := by
  rw [clock_eq]
  cases s.romRise <;> rfl

theorem clock_rRomEna : (s.clock v start b c).rRomEna =
    if s.romRise then decide (s.rRomCnt < 100) else s.rRomEna := by
  rw [clock_eq]
  cases s.romRise <;> rfl

theorem clock_rRomAddra : (s.clock v start b c).rRomAddra =
    if s.romRise then s.rRomCnt else s.rRomAddra := by
  rw [clock_eq]
  cases s.romRise <;> rfl

theorem clock_lineRom : (s.clock v start b c).lineRom =
    if s.romRise && s.rRomEna then rom.clock s.lineRom s.rRomAddra else s.lineRom := by
  rw [clock_eq]
  cases s.romRise <;> rfl

end Step

section Loaded

variable {contents : Nat → BitVec 26}

/-- The ROM is read in its hundred words, and the period is a fast one only before the
first of them has come out. -/
structure Loaded (s : StateCtrl (lineRomIp contents)) : Prop where
  enabled : s.rRomEna = true → s.rRomAddra < 100
  address : LineRomIp.address s.lineRom < 100
  output : LineRomIp.q s.lineRom = 0 ∨ 4000 ≤ (LineRomIp.q s.lineRom).toNat
  period : s.rCntData = 0 ∨ 4000 ≤ s.rCntData
  bounded : s.rCntData < 2 ^ 26

theorem loaded_powerUp :
    Loaded (powerUp LineRomIp.powerUp : StateCtrl (lineRomIp contents)) where
  enabled := nofun
  address := Nat.succ_pos 99
  output := .inl rfl
  period := .inl rfl
  bounded := Nat.two_pow_pos 26

theorem Loaded.clock (hrom : ∀ a < 100, 4000 ≤ (contents a).toNat)
    {s : StateCtrl (lineRomIp contents)} (h : Loaded s) (v : HomingVariant)
    (start b c : Bool) : Loaded (s.clock v start b c) where
  enabled := by
    rw [clock_rRomEna, clock_rRomAddra]
    split
    · exact fun hlow => of_decide_eq_true hlow
    · exact h.enabled
  address := by
    rw [clock_lineRom]
    split
    · next hread => exact h.enabled (Bool.and_eq_true_iff.mp hread).2
    · exact h.address
  output := by
    rw [clock_lineRom]
    split
    · exact .inr (hrom _ h.address)
    · exact h.output
  period := by
    rw [clock_rCntData]
    split
    · exact h.output.imp_left fun hzero => congrArg BitVec.toNat hzero
    · exact .inr (Nat.le_refl _)
  bounded := by
    rw [clock_rCntData]
    split
    · exact BitVec.isLt _
    · decide

end Loaded

/-- The homing of a variant with these ROM contents. -/
def runIp (contents : Nat → BitVec 26) (v : HomingVariant) (inp : Nat → Keys) :
    Nat → StateCtrl (lineRomIp contents) :=
  run v LineRomIp.powerUp inp

section Run

variable {contents : Nat → BitVec 26} {v : HomingVariant} {inp : Nat → Keys}

theorem runIp_succ (t : Nat) : runIp contents v inp (t + 1) =
    (runIp contents v inp t).clock v (inp t).start (inp t).b (inp t).c := rfl

theorem runIp_loaded (hrom : ∀ a < 100, 4000 ≤ (contents a).toNat) (t : Nat) :
    Loaded (runIp contents v inp t) := by
  induction t with
  | zero => exact loaded_powerUp
  | succ t ih =>
      rw [runIp_succ]
      exact ih.clock hrom v _ _ _

/-- Only `IDLE` silences the generator. -/
theorem runIp_rPluseZero {t : Nat} (hmoves : (runIp contents v inp t).rState ≠ .idle) :
    (runIp contents v inp (t + 1)).rPluseZero = false := by
  have hknown (code : Fin 3) : (runIp contents v inp t).rState ≠ .unused code :=
    runFrom_ne_unused v inp rfl t code
  rw [runIp_succ, clock_rPluseZero]
  cases hs : (runIp contents v inp t).rState with
  | idle => exact absurd hs hmoves
  | unused code => exact absurd hs (hknown code)
  | fast | slow | back | limit => rfl

variable (hloaded : ∀ t, Loaded (runIp contents v inp t))
include hloaded

/-- From the start of a period on the generator counts four thousand cycles. -/
theorem rCnt_since {t : Nat} (hzero : (runIp contents v inp t).rCnt = 0) (n : Nat) :
    n ≤ 3999 → (runIp contents v inp (t + n)).rCnt = n := by
  induction n with
  | zero => exact fun _ => hzero
  | succ n ih =>
      intro hn
      have hcnt := ih (by omega)
      have hbounded := (hloaded (t + n)).bounded
      rw [← Nat.add_assoc, runIp_succ, clock_rCnt, hcnt]
      rcases (hloaded (t + n)).period with hnone | hlong
      · rw [hnone, if_pos (by omega)]
        omega
      · rw [if_pos (by omega)]
        omega

omit hloaded in
/-- A pulse of a smooth run begins with a period. -/
theorem rCnt_of_rose (hsmooth : ∀ t, Smooth (runIp contents v inp t)) {t : Nat}
    (hrose : rose (fun k => (runIp contents v inp k).rPluse) t = true) :
    ∃ m, t = m + 1 ∧ (runIp contents v inp m).rCnt = 0 := by
  cases t with
  | zero => cases hrose
  | succ m =>
      obtain ⟨hlow, hhigh⟩ : (runIp contents v inp m).rPluse = false ∧
          (runIp contents v inp (m + 1)).rPluse = true := by
        simpa [rose] using hrose
      rw [runIp_succ, clock_rPluse] at hhigh
      split at hhigh
      · cases hhigh
      · next hmoves =>
          exact ⟨m, rfl, (hsmooth m).begins hlow (eq_false_of_ne_true hmoves)
            (of_decide_eq_true hhigh)⟩

theorem rises_apart (hsmooth : ∀ t, Smooth (runIp contents v inp t)) {t u : Nat} (htu : t < u)
    (ht : rose (fun k => (runIp contents v inp k).rPluse) t = true)
    (hu : rose (fun k => (runIp contents v inp k).rPluse) u = true) : t + 4000 ≤ u := by
  obtain ⟨m, rfl, hm⟩ := rCnt_of_rose hsmooth ht
  obtain ⟨m', rfl, hm'⟩ := rCnt_of_rose hsmooth hu
  by_contra hclose
  have hcnt := rCnt_since hloaded hm (m' - m) (by omega)
  rw [Nat.add_sub_of_le (by omega), hm'] at hcnt
  omega

theorem pulse_wide (hsmooth : ∀ t, Smooth (runIp contents v inp t)) {t n : Nat}
    (hrose : rose (fun k => (runIp contents v inp k).rPluse) t = true)
    (hhigh : ∀ k, t ≤ k → k < t + n → (runIp contents v inp k).rPluse = true)
    (hends : (runIp contents v inp (t + n)).rPluse = false)
    (hmoves : (runIp contents v inp (t + n - 2)).rState ≠ .idle) : 2000 ≤ n := by
  obtain ⟨m, rfl, hm⟩ := rCnt_of_rose hsmooth hrose
  by_contra hshort
  cases n with
  | zero =>
      rw [rose, hends, Bool.and_false] at hrose
      cases hrose
  | succ n =>
      have hbefore : m + 1 + (n + 1) - 2 = m + n := by omega
      have hlast : m + 1 + (n + 1) = m + (n + 1) + 1 := by omega
      have hcnt := rCnt_since hloaded hm (n + 1) (by omega)
      have hon := hhigh (m + (n + 1)) (by omega) (by omega)
      have hlong := (hsmooth (m + (n + 1))).holds hon (by omega)
      rw [hbefore] at hmoves
      rw [hlast, runIp_succ, clock_rPluse, ← Nat.add_assoc, runIp_rPluseZero hmoves] at hends
      simp only [Bool.false_eq_true, if_false, decide_eq_false_iff_not] at hends
      rw [Nat.add_assoc] at hends
      omega

end Run

/-- The start key is pressed in cycle `start` and held. -/
def startAt (start t : Nat) : Keys := ⟨decide (start ≤ t), false, false⟩

section FromStart

variable {contents : Nat → BitVec 26} {v : HomingVariant} {start : Nat}

theorem startAt_rState (t : Nat) : (runIp contents v (startAt start) t).rState =
    if start < t then .fast else .idle := by
  induction t with
  | zero => rfl
  | succ t ih =>
      rw [runIp_succ, clock_rState, nextState, ih]
      by_cases hmoves : start < t
      · rw [if_pos hmoves, if_pos (Nat.lt_succ_of_lt hmoves)]
        rfl
      · simp [if_neg hmoves, startAt]

theorem startAt_rPluseZero (t : Nat) : (runIp contents v (startAt start) (t + 1)).rPluseZero =
    decide (t ≤ start) := by
  rw [runIp_succ, clock_rPluseZero, startAt_rState]
  by_cases hmoves : start < t
  · rw [if_pos hmoves, decide_eq_false (Nat.not_le.mpr hmoves)]
  · rw [if_neg hmoves, decide_eq_true (Nat.not_lt.mp hmoves)]

theorem startAt_rCntData (t : Nat) : (runIp contents v (startAt start) (t + 1)).rCntData =
    4000 := by
  rw [runIp_succ, clock_rCntData, startAt_rState]
  by_cases hmoves : start < t
  · rw [if_pos hmoves]
  · rw [if_neg hmoves]

theorem startAt_rCnt (t : Nat) : (runIp contents v (startAt start) t).rCnt = t % 4000 := by
  induction t with
  | zero => rfl
  | succ t ih =>
      have hfirst : (runIp contents v (startAt start) 0).rCntData = 0 := rfl
      rw [runIp_succ, clock_rCnt, ih]
      cases t with
      | zero =>
          rw [hfirst]
          split <;> omega
      | succ t =>
          rw [startAt_rCntData]
          split <;> omega

/-- The pulses of a fast move in step with the free-running counter. -/
theorem startAt_rPluse (t : Nat) : (runIp contents v (startAt start) (t + 1)).rPluse =
    decide (start + 2 ≤ t ∧ t % 4000 < 2000) := by
  rw [runIp_succ, clock_rPluse, startAt_rCnt]
  cases t with
  | zero =>
      have hfirst : (runIp contents v (startAt start) 0).rPluseZero = false := rfl
      have hnone : (runIp contents v (startAt start) 0).rCntData = 0 := rfl
      rw [hfirst, hnone]
      simp
  | succ t =>
      rw [startAt_rPluseZero, startAt_rCntData]
      by_cases hmoves : t ≤ start
      · have hbefore : ¬ (start + 2 ≤ t + 1 ∧ (t + 1) % 4000 < 2000) := by omega
        rw [decide_eq_true hmoves, decide_eq_false hbefore, if_pos rfl]
      · rw [decide_eq_false hmoves]
        simp only [Bool.false_eq_true, if_false, decide_eq_decide]
        omega

theorem smooth_startAt (hphase : (start + 2) % 4000 = 0 ∨ 2000 ≤ (start + 2) % 4000) (t : Nat) :
    Smooth (runIp contents v (startAt start) t) := by
  cases t with
  | zero => exact ⟨fun _ _ _ => rfl, nofun⟩
  | succ t =>
      refine ⟨fun hlow hmoves hcnt => ?_, fun _ _ => ?_⟩
      · rw [startAt_rPluse, decide_eq_false_iff_not] at hlow
        rw [startAt_rPluseZero, decide_eq_false_iff_not] at hmoves
        rw [startAt_rCnt, startAt_rCntData] at hcnt
        rw [startAt_rCnt]
        omega
      · rw [startAt_rCntData]

end FromStart

/-- In every run whose steps are smooth the pulses are regular. -/
theorem regular_of_smooth (contents : Nat → BitVec 26)
    (hrom : ∀ a < 100, 4000 ≤ (contents a).toNat) (v : HomingVariant) (inp : Nat → Keys)
    (hsmooth : ∀ t, Smooth (runIp contents v inp t)) : Regular (runIp contents v inp) where
  apart _ _ htu ht hu := rises_apart (runIp_loaded hrom) hsmooth htu ht hu
  wide _ _ hrose hhigh hends hmoves :=
    pulse_wide (runIp_loaded hrom) hsmooth hrose hhigh hends hmoves

theorem regular_of_smooth_startAt :
    Regular (runIp (fun _ => 4000) ⟨false, false⟩ (startAt 2500)) :=
  regular_of_smooth _ (fun _ _ => by decide) _ _ (smooth_startAt (by decide))

/-- The first pulse of a move that begins in cycle 0 is two cycles short. -/
theorem regular_startAt_false :
    ¬ Regular (runIp (fun _ => 4000) ⟨false, false⟩ (startAt 0)) := by
  intro h
  have hwide := h.wide 3 1998 ?_ (fun k hk hkn => ?_) ?_ ?_
  · omega
  · simp only [rose, startAt_rPluse]
    decide
  · obtain ⟨k, rfl⟩ := Nat.exists_eq_add_of_le' (Nat.lt_of_lt_of_le (by decide) hk : 0 < k)
    rw [startAt_rPluse, decide_eq_true_iff]
    omega
  · rw [startAt_rPluse, decide_eq_false_iff_not]
    omega
  · rw [startAt_rState]
    decide

end StateCtrl

end CncCard
