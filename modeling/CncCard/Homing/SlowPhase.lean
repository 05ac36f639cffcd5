import CncCard.Clocked.Edges
import CncCard.Homing.MotorCtrl

/-!
The approach to the reference switch: in `SLOW` the edges of the ROM clock count through
the deceleration values, and the edge behind the last one sets the reference. The start
key is looked at in `IDLE` alone, so nothing that happens to it later ends the approach.
-/

namespace CncCard
open Clocked

variable {rom : LineRom}

namespace StateCtrl

variable (v : HomingVariant) (s : StateCtrl rom) (start b c : Bool)

/-- The step raises the ROM clock. -/
def romRise : Bool := !s.rClkdiv && decide (s.rClkdivCnt < c20ms)

theorem clock_eq : s.clock v start b c =
    if s.romRise then (((s.main v start b c).divide s).pulse s).romEdge
    else ((s.main v start b c).divide s).pulse s := rfl

theorem clock_rClkdiv : (s.clock v start b c).rClkdiv = decide (s.rClkdivCnt < c20ms) := by
  simp only [clock]
  split <;> rfl

theorem clock_rClkdivCnt : (s.clock v start b c).rClkdivCnt =
    if s.rClkdivCnt < c40ms - 1 then (s.rClkdivCnt + 1) % 2 ^ 21 else 0 := by
  simp only [clock]
  split <;> rfl

theorem clock_rRomCnt : (s.clock v start b c).rRomCnt =
    if s.romRise then
      if s.nextState start b c = .slow then
        if s.rRomCnt < 100 then (s.rRomCnt + 1) % 2 ^ 7 else s.rRomCnt
      else 0
    else s.rRomCnt := by
  rw [clock_eq]
  cases s.romRise <;> rfl

theorem clock_rSet : (s.clock v start b c).rSet =
    if s.romRise then decide (s.rRomCnt = 100) else s.rSet := by
  rw [clock_eq]
  cases s.romRise <;> rfl

theorem clock_rState2Zero : (s.clock v start b c).rState2Zero =
    if s.romRise then decide (s.rRomCnt = 100) else s.rState2Zero := by
  rw [clock_eq]
  cases s.romRise <;> rfl

variable {s}

/-- The start key is read in `IDLE` only. -/
theorem clock_start (start' : Bool) (h : s.rState ≠ .idle) :
    s.clock v start b c = s.clock v start' b c := by
  have hnext : s.nextState start b c = s.nextState start' b c := by
    unfold nextState
    split
    · next hidle => exact absurd hidle h
    all_goals rfl
  have hmain : s.main v start b c = s.main v start' b c := by
    simp only [main, hnext]
  simp only [clock, hmain]

/-- Between two edges of the ROM clock the counter stands for a stay in `SLOW`, unless the
last edge set the reference. -/
structure Counting (s : StateCtrl rom) : Prop where
  zero_eq : s.rState2Zero = s.rSet
  le : s.rRomCnt ≤ 100
  slow : s.rSet = false → 0 < s.rRomCnt → s.rState = .slow
  set : s.rSet = true → s.rRomCnt = 0 ∨ s.rRomCnt = 100

theorem counting_powerUp (lineRom : rom.State) : Counting (powerUp lineRom) where
  zero_eq := rfl
  le := Nat.zero_le _
  slow := fun _ h => absurd h (Nat.lt_irrefl 0)
  set := nofun

theorem nextState_slow (hslow : s.rState = .slow) (hzero : s.rState2Zero = false) :
    s.nextState start b c = .slow := by
  simp [nextState, hslow, hzero]

theorem Counting.clock (h : Counting s) : Counting (s.clock v start b c) where
  zero_eq := by rw [clock_rState2Zero, clock_rSet, h.zero_eq]
  le := by
    have hle := h.le
    rw [clock_rRomCnt]
    split
    · split
      · split <;> omega
      · exact Nat.zero_le _
    · exact hle
  slow := by
    intro hset hpos
    rw [clock_rState]
    rw [clock_rSet] at hset
    rw [clock_rRomCnt] at hpos
    split at hpos
    · split at hpos
      · next hnext => exact hnext
      · exact absurd hpos (Nat.lt_irrefl 0)
    · next hquiet =>
        rw [if_neg hquiet] at hset
        exact nextState_slow start b c (h.slow hset hpos) (h.zero_eq ▸ hset)
  set := by
    intro hset
    rw [clock_rSet] at hset
    rw [clock_rRomCnt]
    split
    · next hrise =>
        rw [if_pos hrise, decide_eq_true_iff] at hset
        simp only [hset, Nat.lt_irrefl, if_false]
        split <;> omega
    · next hquiet =>
        rw [if_neg hquiet] at hset
        exact h.set hset

/-- The reference is set by the edge behind the last ROM value, out of `SLOW`. -/
theorem Counting.of_set (h : Counting s) (hlow : s.rSet = false)
    (hset : (s.clock v start b c).rSet = true) :
    s.romRise = true ∧ s.rRomCnt = 100 ∧ s.rState = .slow := by
  rw [clock_rSet] at hset
  split at hset
  · next hrise =>
      have hcnt : s.rRomCnt = 100 := of_decide_eq_true hset
      exact ⟨hrise, hcnt, h.slow hlow (by omega)⟩
  · rw [hlow] at hset
    cases hset

/-- `SLOW` lasts until the reference is set. -/
theorem Counting.set_low (h : Counting s) (hslow : s.rState = .slow)
    (hnext : (s.clock v start b c).rState = .slow) : s.rSet = false := by
  rw [clock_rState, nextState, hslow, h.zero_eq] at hnext
  cases hset : s.rSet with
  | false => rfl
  | true => simp [hset] at hnext

/-- The counter is at its start when `SLOW` is entered. -/
theorem Counting.cnt_entered (h : Counting s) (hout : s.rState ≠ .slow)
    (hlow : (s.clock v start b c).rSet = false) : (s.clock v start b c).rRomCnt ≤ 1 := by
  have hzero : s.rRomCnt = 0 := by
    cases hset : s.rSet with
    | false => exact Nat.eq_zero_of_not_pos fun hpos => hout (h.slow hset hpos)
    | true =>
        refine (h.set hset).resolve_right fun hfull => ?_
        rw [clock_rSet, hset, hfull] at hlow
        simp at hlow
  rw [clock_rRomCnt, hzero]
  split
  · split <;> simp
  · exact Nat.zero_le 1

theorem clock_rRomCnt_le : (s.clock v start b c).rRomCnt ≤ s.rRomCnt + s.romRise.toNat := by
  rw [clock_rRomCnt]
  cases s.romRise with
  | false => simp
  | true =>
      simp only [if_true, Bool.toNat_true]
      split
      · split <;> omega
      · omega

end StateCtrl

/-- A stay in `SLOW` up to `n`, with `a` the last cycle before it. -/
structure SlowPhase (state : Nat → HomingState) (a n : Nat) : Prop where
  before : state a ≠ .slow
  lt : a < n
  slow : ∀ k, a < k → k ≤ n → state k = .slow

theorem exists_slowPhase (state : Nat → HomingState) (hstart : state 0 ≠ .slow) {n : Nat}
    (h : state n = .slow) : ∃ a, SlowPhase state a n := by
  induction n with
  | zero => exact absurd h hstart
  | succ n ih =>
      by_cases hlast : state n = .slow
      · obtain ⟨a, hbefore, hlt, hslow⟩ := ih hlast
        refine ⟨a, hbefore, Nat.lt_succ_of_lt hlt, fun k hak hkn => ?_⟩
        cases Nat.lt_or_eq_of_le hkn with
        | inl hk => exact hslow k hak (Nat.le_of_lt_succ hk)
        | inr heq => rw [heq, h]
      · refine ⟨n, hlast, Nat.lt_succ_self n, fun k hnk hkn => ?_⟩
        obtain rfl : k = n + 1 := by omega
        exact h

namespace StateCtrl

section Run

variable {v : HomingVariant} {r : Nat → StateCtrl rom}

/-- Each instant either brings a clock edge or changes nothing. -/
def Stepping (v : HomingVariant) (r : Nat → StateCtrl rom) : Prop :=
  ∀ n, r (n + 1) = r n ∨ ∃ start b c, r (n + 1) = (r n).clock v start b c

theorem Stepping.counting (hstep : Stepping v r) (hstart : Counting (r 0)) (n : Nat) :
    Counting (r n) := by
  induction n with
  | zero => exact hstart
  | succ n ih =>
      obtain hquiet | ⟨start, b, c, hclock⟩ := hstep n
      · rw [hquiet]
        exact ih
      · rw [hclock]
        exact ih.clock v start b c

theorem Stepping.rRomCnt_le (hstep : Stepping v r) {a b : Nat} (hab : a ≤ b) :
    (r b).rRomCnt ≤
      (r a).rRomCnt + edges (fun t => (r t).rClkdiv) (fun _ => true) (a + 1) (b + 1) := by
  induction b, hab using Nat.le_induction with
  | base => exact Nat.le_add_right _ _
  | succ b hab ih =>
      rw [edges_succ _ _ (by omega), Bool.and_true]
      obtain hquiet | ⟨start, k, c, hclock⟩ := hstep b
      · rw [hquiet]
        omega
      · have hle := clock_rRomCnt_le v (s := r b) start k c
        have hrose : rose (fun t => (r t).rClkdiv) (b + 1) = (r b).romRise := by
          rw [rose, hclock, clock_rClkdiv, romRise]
        rw [hrose, hclock]
        omega

/-- The reference is not set before the end of the phase. -/
theorem Stepping.rSet_low (hstep : Stepping v r) (hcnt : ∀ n, Counting (r n)) {a n : Nat}
    (hphase : SlowPhase (fun t => (r t).rState) a (n + 1)) (hlow : (r n).rSet = false) {k : Nat}
    (hak : a < k) (hkn : k ≤ n) : (r k).rSet = false := by
  by_contra hhigh
  have hstay (j : Nat) (hkj : k ≤ j) : j ≤ n → (r j).rSet = true := by
    induction j, hkj using Nat.le_induction with
    | base => exact fun _ => eq_true_of_ne_false hhigh
    | succ j hkj ih =>
        intro hjn
        obtain hquiet | ⟨start, b, c, hclock⟩ := hstep j
        · rw [hquiet]
          exact ih (by omega)
        · have hslow : (r (j + 1)).rState = .slow := hphase.slow (j + 1) (by omega) (by omega)
          rw [hclock] at hslow
          have hset := (hcnt j).set_low v start b c (hphase.slow j (by omega) (by omega)) hslow
          rw [ih (by omega)] at hset
          cases hset
  rw [hstay n hkn (Nat.le_refl n)] at hlow
  cases hlow

/-- A reference is set at the end of a stay in `SLOW` that has seen a hundred edges of the
ROM clock. -/
theorem Stepping.slowPhase_of_set (hstep : Stepping v r) (hstart : r 0 = powerUp (r 0).lineRom)
    {n : Nat} (hrise : rose (fun t => (r t).rSet) n = true) :
    ∃ a, SlowPhase (fun t => (r t).rState) a n ∧
      100 ≤ edges (fun t => (r t).rClkdiv) (fun _ => true) (a + 1) (n + 1) := by
  have hcnt := hstep.counting (hstart ▸ counting_powerUp _)
  cases n with
  | zero => cases hrise
  | succ n =>
      obtain ⟨hlow, hset⟩ : (r n).rSet = false ∧ (r (n + 1)).rSet = true := by
        simpa [rose] using hrise
      obtain hquiet | ⟨start, b, c, hclock⟩ := hstep n
      · rw [hquiet, hlow] at hset
        cases hset
      · rw [hclock] at hset
        obtain ⟨hrom, hfull, hslow⟩ := (hcnt n).of_set v start b c hlow hset
        have hnext : (r (n + 1)).rState = .slow := by
          rw [hclock, clock_rState]
          exact nextState_slow start b c hslow ((hcnt n).zero_eq.trans hlow)
        obtain ⟨a, hphase⟩ := exists_slowPhase (fun t => (r t).rState)
          (by rw [hstart]; intro hidle; cases hidle) hnext
        refine ⟨a, hphase, ?_⟩
        have han : a < n := by
          refine Nat.lt_of_le_of_ne (Nat.le_of_lt_succ hphase.lt) fun heq => ?_
          exact hphase.before (heq ▸ hslow)
        have hfirst : (r (a + 1)).rRomCnt ≤ 1 := by
          have hfirstLow := hstep.rSet_low hcnt hphase hlow (Nat.lt_succ_self a) han
          obtain hquiet | ⟨start, b, c, henter⟩ := hstep a
          · have hin := hphase.slow (a + 1) (by omega) (by omega)
            simp only [hquiet] at hin
            exact absurd hin hphase.before
          · rw [henter] at hfirstLow ⊢
            exact (hcnt a).cnt_entered v start b c hphase.before hfirstLow
        have hcount := hstep.rRomCnt_le (a := a + 1) (b := n) han
        have hlast : rose (fun t => (r t).rClkdiv) (n + 1) = true := by
          rw [rose, hclock, clock_rClkdiv]
          exact hrom
        rw [← edges_append _ _ (b := a + 1 + 1) (by omega) (by omega),
          edges_succ _ _ (a := a + 1 + 1) (b := n + 1) (by omega), hlast, Bool.and_true,
          Bool.toNat_true]
        omega

end Run

section Powered

variable (v : HomingVariant) (lineRom : rom.State) (inp : Nat → Keys)

theorem run_succ (t : Nat) : run v lineRom inp (t + 1) =
    (run v lineRom inp t).clock v (inp t).start (inp t).b (inp t).c := rfl

theorem run_stepping : Stepping v (run v lineRom inp) :=
  fun t => .inr ⟨_, _, _, run_succ v lineRom inp t⟩

theorem run_counting (t : Nat) : Counting (run v lineRom inp t) :=
  (run_stepping v lineRom inp).counting (counting_powerUp lineRom) t

theorem run_rClkdivCnt (t : Nat) : (run v lineRom inp t).rClkdivCnt = t % c40ms := by
  induction t with
  | zero => rfl
  | succ t ih =>
      rw [run_succ, clock_rClkdivCnt, ih]
      by_cases h : t % c40ms < c40ms - 1
      · rw [if_pos h]
        simp only [c40ms] at h ⊢
        omega
      · rw [if_neg h]
        simp only [c40ms] at h ⊢
        omega

/-- The ROM clock rises at every multiple of its period. -/
theorem run_romRise (t : Nat) :
    (run v lineRom inp t).romRise = true ↔ t % c40ms = 0 := by
  rw [romRise, run_rClkdivCnt, Bool.and_eq_true, Bool.not_eq_true', decide_eq_true_iff]
  cases t with
  | zero => exact ⟨fun _ => rfl, fun _ => ⟨rfl, by decide⟩⟩
  | succ t =>
      rw [run_succ, clock_rClkdiv, run_rClkdivCnt, decide_eq_false_iff_not]
      simp only [c40ms, c20ms]
      omega

theorem run_slow_succ {t : Nat} (hslow : (run v lineRom inp t).rState = .slow)
    (hlow : (run v lineRom inp t).rSet = false) :
    (run v lineRom inp (t + 1)).rState = .slow := by
  rw [run_succ, clock_rState]
  exact nextState_slow _ _ _ hslow ((run_counting v lineRom inp t).zero_eq.trans hlow)

/-- The counter follows the edges of the ROM clock since `t`. -/
theorem le_run_rRomCnt {t u : Nat} (htu : t ≤ u)
    (hslow : ∀ k, t ≤ k → (run v lineRom inp k).rState = .slow) :
    min 100 ((u + (c40ms - 1)) / c40ms - (t + (c40ms - 1)) / c40ms) ≤
      (run v lineRom inp u).rRomCnt := by
  induction u, htu using Nat.le_induction with
  | base => simp
  | succ u htu ih =>
      have hnext := hslow (u + 1) (by omega)
      rw [run_succ, clock_rState] at hnext
      rw [run_succ, clock_rRomCnt, if_pos hnext]
      by_cases hrise : (run v lineRom inp u).romRise = true
      · rw [if_pos hrise]
        rw [run_romRise] at hrise
        simp only [c40ms] at ih hrise ⊢
        split <;> omega
      · rw [if_neg hrise]
        rw [run_romRise] at hrise
        simp only [c40ms] at ih hrise ⊢
        omega

/-- Every stay in `SLOW` ends with the reference being set, whatever the keys do. -/
theorem exists_set {t : Nat} (hslow : (run v lineRom inp t).rState = .slow)
    (hlow : (run v lineRom inp t).rSet = false) :
    ∃ u, t ≤ u ∧ (run v lineRom inp u).rSet = false ∧
      (run v lineRom inp (u + 1)).rSet = true := by
  by_contra hnever
  have hstay (k : Nat) (htk : t ≤ k) :
      (run v lineRom inp k).rState = .slow ∧ (run v lineRom inp k).rSet = false := by
    induction k, htk using Nat.le_induction with
    | base => exact ⟨hslow, hlow⟩
    | succ k htk ih =>
        refine ⟨run_slow_succ v lineRom inp ih.1 ih.2, ?_⟩
        exact eq_false_of_ne_true fun hset => hnever ⟨k, htk, ih.2, hset⟩
  have htu : t ≤ c40ms * (t + 100) := by
    simp only [c40ms]
    omega
  have hfull : (run v lineRom inp (c40ms * (t + 100))).rRomCnt = 100 := by
    have hcount := le_run_rRomCnt v lineRom inp htu fun k hk => (hstay k hk).1
    have hle := (run_counting v lineRom inp (c40ms * (t + 100))).le
    simp only [c40ms] at hcount hle ⊢
    omega
  have hset := (hstay (c40ms * (t + 100) + 1) (by omega)).2
  rw [run_succ, clock_rSet,
    if_pos ((run_romRise v lineRom inp _).mpr (Nat.mul_mod_right _ _)), hfull] at hset
  cases hset

/-- Without a stay in `SLOW` no reference is set. -/
theorem run_unset {t : Nat} (h : ∀ k, k ≤ t → (run v lineRom inp k).rState ≠ .slow) :
    (run v lineRom inp t).rRomCnt = 0 ∧ (run v lineRom inp t).rSet = false := by
  induction t with
  | zero => exact ⟨rfl, rfl⟩
  | succ t ih =>
      obtain ⟨hcnt, hset⟩ := ih fun k hk => h k (by omega)
      have hnext := h (t + 1) (Nat.le_refl _)
      rw [run_succ, clock_rState] at hnext
      rw [run_succ, clock_rRomCnt, clock_rSet, if_neg hnext, hcnt, hset]
      exact ⟨ite_self 0, ite_self false⟩

end Powered

end StateCtrl

namespace MotorCtrl

/-- Two drives that differ in the channel of the start key at most. -/
structure SameButStart (s s' : MotorCtrl rom) : Prop where
  ctrl : s'.ctrl = s.ctrl
  key2 : s'.keys.key2 = s.keys.key2
  key3 : s'.keys.key3 = s.keys.key3

theorem SameButStart.motorCtrl {s s' : MotorCtrl rom} (h : SameButStart s s')
    (hbusy : s.ctrl.rState ≠ .idle) (a a' b c : Bool) :
    SameButStart (motorCtrl s ⟨a, b, c⟩) (motorCtrl s' ⟨a', b, c⟩) where
  ctrl := by
    have hkey2 : s'.keys.key2.rdy = s.keys.key2.rdy := by rw [h.key2]
    have hkey3 : s'.keys.key3.rdy = s.keys.key3.rdy := by rw [h.key3]
    simp only [CncCard.motorCtrl, stateCtrl, h.ctrl, hkey2, hkey3]
    exact StateCtrl.clock_start _ _ _ _ _ hbusy
  key2 := congrArg (·.clock b) h.key2
  key3 := congrArg (·.clock c) h.key3

section Run

variable (lineRom : rom.State) (inp : Nat → KeyInput)

theorem run_ctrl_succ (t : Nat) : (run lineRom inp (t + 1)).ctrl =
    (run lineRom inp t).ctrl.clock ⟨false, false⟩ (run lineRom inp t).keys.key1.rdy
      (run lineRom inp t).keys.key2.rdy (run lineRom inp t).keys.key3.rdy := rfl

/-- The state machine of a drive runs by itself on the pulses of the keys. -/
theorem run_ctrl (t : Nat) : (run lineRom inp t).ctrl =
    StateCtrl.run ⟨false, false⟩ lineRom (fun k => ⟨(run lineRom inp k).keys.key1.rdy,
      (run lineRom inp k).keys.key2.rdy, (run lineRom inp k).keys.key3.rdy⟩) t := by
  induction t with
  | zero => rfl
  | succ t ih => rw [run_ctrl_succ, StateCtrl.run_succ, ih]

theorem run_stepping :
    StateCtrl.Stepping ⟨false, false⟩ fun t => (run lineRom inp t).ctrl :=
  fun t => .inr ⟨_, _, _, run_ctrl_succ lineRom inp t⟩

theorem run_counting (t : Nat) : StateCtrl.Counting (run lineRom inp t).ctrl :=
  (run_stepping lineRom inp).counting (StateCtrl.counting_powerUp lineRom) t

theorem run_romRise (t : Nat) :
    (run lineRom inp t).ctrl.romRise = true ↔ t % c40ms = 0 := by
  rw [run_ctrl]
  exact StateCtrl.run_romRise _ _ _ t

/-- Every stay in `SLOW` ends with the reference being set, whatever the keys do. -/
theorem exists_set {t : Nat} (hslow : (run lineRom inp t).ctrl.rState = .slow)
    (hlow : (run lineRom inp t).ctrl.rSet = false) :
    ∃ u, t ≤ u ∧ (run lineRom inp u).ctrl.rSet = false ∧
      (run lineRom inp (u + 1)).ctrl.rSet = true := by
  simp only [run_ctrl] at hslow hlow ⊢
  exact StateCtrl.exists_set _ _ _ hslow hlow

theorem run_slow_succ {t : Nat} (hslow : (run lineRom inp t).ctrl.rState = .slow)
    (hlow : (run lineRom inp t).ctrl.rSet = false) :
    (run lineRom inp (t + 1)).ctrl.rState = .slow := by
  rw [run_rState_succ]
  exact StateCtrl.nextState_slow _ _ _ hslow ((run_counting lineRom inp t).zero_eq.trans hlow)

theorem run_unset {t : Nat} (h : ∀ k, k ≤ t → (run lineRom inp k).ctrl.rState ≠ .slow) :
    (run lineRom inp t).ctrl.rRomCnt = 0 ∧ (run lineRom inp t).ctrl.rSet = false := by
  simp only [run_ctrl] at h ⊢
  exact StateCtrl.run_unset _ _ _ h

/-- A start key held since power-up and a zero switch closed one cycle later: the pulse of
the first leads to `FAST`, that of the second, in the next cycle, on to `SLOW`. -/
theorem run_slow (hstart : ∀ k, k < cButton → (inp k).iKeyA = true)
    (hopen : (inp 0).iKeyB = false)
    (hclosed : ∀ k, 0 < k → k ≤ cButton → (inp k).iKeyB = true) :
    (∀ k, k ≤ cButton + 2 → (run lineRom inp k).ctrl.rState ≠ .slow) ∧
      (run lineRom inp (cButton + 3)).ctrl.rState = .slow := by
  have hidle {k : Nat} (hk : k ≤ cButton + 1) : (run lineRom inp k).ctrl.rState = .idle :=
    run_idle lineRom inp (fun j hj => hstart j (by omega)) hk
  have hkey1 : (run lineRom inp (cButton + 1)).keys.key1.rdy = true := by
    rw [run_key1, KeyChannel.run_succ, KeyChannel.clock_rdy]
    exact KeyChannel.count_of_held _ hstart (by decide)
  have hkey2 : (run lineRom inp (cButton + 2)).keys.key2.rdy = true := by
    rw [run_key2, KeyChannel.run_open_first _ hopen, KeyChannel.run_succ, KeyChannel.clock_rdy]
    exact KeyChannel.count_of_held _ (fun k hk => hclosed (k + 1) (Nat.succ_pos k) hk) (by decide)
  have hfast : (run lineRom inp (cButton + 2)).ctrl.rState = .fast := by
    rw [run_rState_succ, StateCtrl.nextState, hidle (Nat.le_refl _), hkey1]
    rfl
  constructor
  · intro k hk
    cases Nat.lt_or_eq_of_le hk with
    | inl hlt => rw [hidle (Nat.le_of_lt_succ hlt)]; decide
    | inr heq => rw [heq, hfast]; decide
  · rw [run_rState_succ, StateCtrl.nextState, hfast, hkey2]
    rfl

/-- Such a homing sets its reference, two cycles after it has come to `SLOW` at the
earliest. -/
theorem run_slow_set (hstart : ∀ k, k < cButton → (inp k).iKeyA = true)
    (hopen : (inp 0).iKeyB = false)
    (hclosed : ∀ k, 0 < k → k ≤ cButton → (inp k).iKeyB = true) :
    ∃ u, cButton + 3 < u ∧ (run lineRom inp u).ctrl.rSet = false ∧
      (run lineRom inp (u + 1)).ctrl.rSet = true := by
  obtain ⟨hbefore, hslow⟩ := run_slow lineRom inp hstart hopen hclosed
  obtain ⟨hcnt, hset⟩ := run_unset lineRom inp hbefore
  have hlow : (run lineRom inp (cButton + 3)).ctrl.rSet = false := by
    rw [run_ctrl_succ, StateCtrl.clock_rSet, hcnt, hset]
    exact ite_self false
  have hfirst : (run lineRom inp (cButton + 3)).ctrl.rRomCnt ≤ 1 := by
    have henter := hlow
    rw [run_ctrl_succ] at henter ⊢
    exact (run_counting lineRom inp (cButton + 2)).cnt_entered _ _ _ _
      (hbefore _ (Nat.le_refl _)) henter
  refine exists_set lineRom inp (run_slow_succ lineRom inp hslow hlow) ?_
  have hpart : (run lineRom inp (cButton + 3)).ctrl.rRomCnt ≠ 100 := by omega
  rw [run_ctrl_succ, StateCtrl.clock_rSet, decide_eq_false hpart, hlow]
  exact ite_self false

end Run

end MotorCtrl

end CncCard
