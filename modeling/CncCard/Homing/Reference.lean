import CncCard.Clocked.Domain
import CncCard.Homing.SlowPhase
import CncCard.Panel.Debouncer

/-!
The homing of Z on the card. The button `key_zero` goes to `zero_sel`, which passes the
homing pulses to the axis while its debounced flag is up, and to `motor_ctrl`, which runs
the homing and sets the reference. The first runs on `tlpclk`, the second on `clk_40m`, and
nothing connects them but the button.
-/

namespace CncCard
open Clocked

variable {rom : LineRom}

/-- The directions and pulses of the three axes. -/
structure AxisMotion where
  dirX : Bool
  dirY : Bool
  dirZ : Bool
  pulsX : Bool
  pulsY : Bool
  pulsZ : Bool

/-- The outputs of `zero_sel`. -/
def zeroSel (s : Debouncer) (zero jog : AxisMotion) : AxisMotion where
  dirX := if s.flag then zero.dirX else jog.dirX
  dirY := if s.flag then zero.dirY else jog.dirY
  dirZ := if s.flag then zero.dirZ else jog.dirZ
  pulsX := if s.flag then zero.pulsX else jog.pulsX
  pulsY := if s.flag then zero.pulsY else jog.pulsY
  pulsZ := if s.flag then zero.pulsZ else jog.pulsZ

theorem zeroSel_eq (s : Debouncer) (zero jog : AxisMotion) :
    zeroSel s zero jog = if s.flag then zero else jog := by
  rw [zeroSel]
  cases s.flag <;> rfl

/-- What reaches the two modules at an instant, and which clocks have an edge there. -/
structure HomingInput where
  tlpclk : Bool
  clk40m : Bool
  szero : Bool
  szeroS : Bool
  zeroZdot : Bool
  s5 : Bool

def HomingInput.keyZero (i : HomingInput) : Bool := i.szeroS || i.szero

structure HomingPath (rom : LineRom) where
  uZeroSel : Debouncer
  uZeroZ : MotorCtrl rom

namespace HomingPath

def powerUp (lineRom : rom.State) : HomingPath rom := ⟨.powerUp, .powerUp lineRom⟩

def step (s : HomingPath rom) (i : HomingInput) : HomingPath rom where
  uZeroSel := gated Debouncer.clock s.uZeroSel (i.tlpclk, i.keyZero)
  uZeroZ := gated motorCtrl s.uZeroZ (i.clk40m, ⟨i.keyZero, i.zeroZdot, i.s5⟩)

def run (lineRom : rom.State) (inp : Nat → HomingInput) : Nat → HomingPath rom :=
  trace step (powerUp lineRom) inp

section Run

variable (lineRom : rom.State) (inp : Nat → HomingInput)

def state (n : Nat) : HomingState := (run lineRom inp n).uZeroZ.ctrl.rState

def oSet (n : Nat) : Bool := (run lineRom inp n).uZeroZ.ctrl.rSet

def rClkdiv (n : Nat) : Bool := (run lineRom inp n).uZeroZ.ctrl.rClkdiv

def flag (n : Nat) : Bool := (run lineRom inp n).uZeroSel.flag

theorem run_succ (n : Nat) : run lineRom inp (n + 1) = (run lineRom inp n).step (inp n) := rfl

theorem run_uZeroSel (n : Nat) : (run lineRom inp n).uZeroSel =
    Debouncer.run (sampled (fun k => (inp k).tlpclk) fun k => (inp k).keyZero)
      (ticks (fun k => (inp k).tlpclk) n) :=
  have hstep (s : HomingPath rom) (i : HomingInput) :
      (s.step i).uZeroSel = gated Debouncer.clock s.uZeroSel (i.tlpclk, i.keyZero) := rfl
  (trace_part (p := uZeroSel) hstep n).trans (trace_gated _ _ _ _ n)

theorem run_uZeroZ (n : Nat) : (run lineRom inp n).uZeroZ =
    MotorCtrl.run lineRom
      (sampled (fun k => (inp k).clk40m) fun k => ⟨(inp k).keyZero, (inp k).zeroZdot, (inp k).s5⟩)
      (ticks (fun k => (inp k).clk40m) n) :=
  have hstep (s : HomingPath rom) (i : HomingInput) : (s.step i).uZeroZ =
      gated motorCtrl s.uZeroZ (i.clk40m, ⟨i.keyZero, i.zeroZdot, i.s5⟩) := rfl
  (trace_part (p := uZeroZ) hstep n).trans (trace_gated _ _ _ _ n)

theorem flag_iff_held (n : Nat) : flag lineRom inp n = true ↔
    Held (sampled (fun k => (inp k).tlpclk) fun k => (inp k).keyZero) 126
      (ticks (fun k => (inp k).tlpclk) n) := by
  rw [flag, run_uZeroSel, Debouncer.run_flag]

variable {lineRom inp}

theorem flag_quiet {n : Nat} (h : (inp n).tlpclk = false) :
    flag lineRom inp (n + 1) = flag lineRom inp n := by
  simp [flag, run_succ, step, gated, h]

theorem flag_edge {n : Nat} (h : (inp n).tlpclk = true) : flag lineRom inp (n + 1) =
    ((run lineRom inp n).uZeroSel.clock (inp n).keyZero).flag := by
  simp [flag, run_succ, step, gated, h]

variable (inp) in
/-- The button has been down at the 126 edges of `tlpclk` before the cycle behind `a`, and
stays down at those from there to `n`. -/
def HeldThrough (a n : Nat) : Prop :=
  Held (sampled (fun k => (inp k).tlpclk) fun k => (inp k).keyZero) 126
      (ticks (fun k => (inp k).tlpclk) (a + 1)) ∧
    ∀ k, a < k → k < n → (inp k).tlpclk = true → (inp k).keyZero = true

theorem routed_iff_heldThrough {a n : Nat} (han : a < n) :
    (∀ k, a < k → k ≤ n → flag lineRom inp k = true) ↔ HeldThrough inp a n := by
  rw [HeldThrough, ← flag_iff_held lineRom]
  constructor
  · intro h
    refine ⟨h (a + 1) (Nat.lt_succ_self a) han, fun k hak hkn hedge => ?_⟩
    have hnext := h (k + 1) (by omega) hkn
    rw [flag_edge hedge] at hnext
    cases hkey : (inp k).keyZero with
    | true => rfl
    | false =>
        rw [hkey, Debouncer.clock_flag_open] at hnext
        cases hnext
  · rintro ⟨hfirst, hdown⟩ k hak
    induction k, hak using Nat.le_induction with
    | base => exact fun _ => hfirst
    | succ k hak ih =>
        intro hkn
        have hflag := ih (by omega)
        cases hedge : (inp k).tlpclk with
        | false => rw [flag_quiet hedge, hflag]
        | true =>
            rw [flag_edge hedge, hdown k hak (by omega) hedge]
            exact Debouncer.clock_flag_stays hflag

variable (inp) in
/-- After an edge that finds the button up, the flag is down for as long as it stays up. -/
theorem flag_released {m : Nat} (hedge : (inp m).tlpclk = true)
    (hup : ∀ k, m ≤ k → (inp k).keyZero = false) {n : Nat} (hmn : m < n) :
    flag lineRom inp n = false := by
  induction n, hmn using Nat.le_induction with
  | base => rw [flag_edge hedge, hup m (Nat.le_refl m), Debouncer.clock_flag_open]
  | succ n hmn ih =>
      cases h : (inp n).tlpclk with
      | false => rw [flag_quiet h, ih]
      | true => rw [flag_edge h, hup n (by omega), Debouncer.clock_flag_open]

theorem uZeroZ_quiet {n : Nat} (h : (inp n).clk40m = false) :
    (run lineRom inp (n + 1)).uZeroZ = (run lineRom inp n).uZeroZ := by
  simp [run_succ, step, gated, h]

theorem uZeroZ_edge {n : Nat} (h : (inp n).clk40m = true) : (run lineRom inp (n + 1)).uZeroZ =
    motorCtrl (run lineRom inp n).uZeroZ
      ⟨(inp n).keyZero, (inp n).zeroZdot, (inp n).s5⟩ := by
  simp [run_succ, step, gated, h]

variable (lineRom inp) in
theorem run_stepping :
    StateCtrl.Stepping ⟨false, false⟩ fun n => (run lineRom inp n).uZeroZ.ctrl := by
  intro n
  cases h : (inp n).clk40m with
  | false => exact .inl (congrArg MotorCtrl.ctrl (uZeroZ_quiet h))
  | true => exact .inr ⟨_, _, _, congrArg MotorCtrl.ctrl (uZeroZ_edge h)⟩

variable (inp) in
/-- The same history up to `m`, and from there with another one of the button. -/
def withButton (m : Nat) (szero szeroS : Nat → Bool) (k : Nat) : HomingInput :=
  if k < m then inp k else { inp k with szero := szero k, szeroS := szeroS k }

theorem run_withButton (m : Nat) (szero szeroS : Nat → Bool) :
    run lineRom (withButton inp m szero szeroS) m = run lineRom inp m :=
  trace_congr _ _ _ m fun _ hk => if_pos hk

/-- The homing goes its way without the button until it is back in `IDLE`. -/
theorem ctrl_withButton {m : Nat} (szero szeroS : Nat → Bool) {n : Nat} (hmn : m ≤ n)
    (hbusy : ∀ k, m ≤ k → k < n → state lineRom inp k ≠ .idle) :
    (run lineRom (withButton inp m szero szeroS) n).uZeroZ.ctrl =
      (run lineRom inp n).uZeroZ.ctrl := by
  suffices hsame : MotorCtrl.SameButStart (run lineRom inp n).uZeroZ
      (run lineRom (withButton inp m szero szeroS) n).uZeroZ from hsame.ctrl
  induction n, hmn using Nat.le_induction with
  | base =>
      rw [run_withButton]
      exact ⟨rfl, rfl, rfl⟩
  | succ n hmn ih =>
      have hsame := ih fun k hmk hkn => hbusy k hmk (by omega)
      have hinp : withButton inp m szero szeroS n =
          { inp n with szero := szero n, szeroS := szeroS n } := if_neg (by omega)
      cases hedge : (inp n).clk40m with
      | false =>
          rw [uZeroZ_quiet hedge, uZeroZ_quiet (by rw [hinp, hedge])]
          exact hsame
      | true =>
          rw [uZeroZ_edge hedge, uZeroZ_edge (by rw [hinp, hedge]), hinp]
          exact hsame.motorCtrl (hbusy n hmn (by omega)) _ _ _ _

variable (lineRom inp) in
/-- Every reference is set at the end of a stay in `SLOW` that has seen a hundred edges of
the ROM clock. The homing pulses have been routed all through it if and only if the button
has been held for as long and the debouncing before; the button alone decides this, and the
homing goes on without it. -/
theorem routed_through_iff :
    (∀ n, rose (oSet lineRom inp) n = true → ∃ a, SlowPhase (state lineRom inp) a n ∧
      100 ≤ edges (rClkdiv lineRom inp) (fun _ => true) (a + 1) (n + 1) ∧
      ((∀ k, a < k → k ≤ n → flag lineRom inp k = true) ↔ HeldThrough inp a n)) ∧
    ∀ m szero szeroS n, m ≤ n → (∀ k, m ≤ k → k < n → state lineRom inp k ≠ .idle) →
      (run lineRom (withButton inp m szero szeroS) n).uZeroZ.ctrl =
        (run lineRom inp n).uZeroZ.ctrl := by
  refine ⟨fun n hrise => ?_, fun m szero szeroS n => ctrl_withButton szero szeroS⟩
  obtain ⟨a, hphase, hedges⟩ := (run_stepping lineRom inp).slowPhase_of_set rfl hrise
  exact ⟨a, hphase, hedges, routed_iff_heldThrough hphase.lt⟩

variable (lineRom inp) in
/-- The homing pulses are routed all through the stay in `SLOW` that sets the reference. -/
def RoutedThrough : Prop :=
  ∀ n, rose (oSet lineRom inp) n = true → ∃ a, SlowPhase (state lineRom inp) a n ∧
    ∀ k, a < k → k ≤ n → flag lineRom inp k = true

end Run

/-- The button is held since power-up and let go when the homing has just come to `SLOW`;
the zero switch is closed from the second cycle of the 40 MHz clock on. The instants are a
nanosecond apart. -/
def released (n : Nat) : HomingInput :=
  ⟨everyNth 8 n, everyNth 25 n, decide (n < 100000080), false, decide (25 ≤ n), false⟩

theorem run_released (lineRom : rom.State) (n : Nat) :
    (run lineRom released n).uZeroZ = MotorCtrl.run lineRom
      (fun m => ⟨decide (25 * m < 100000080), decide (25 ≤ 25 * m), false⟩)
      (ticks (everyNth 25) n) := by
  rw [run_uZeroZ]
  congr 1
  funext m
  exact sampled_everyNth (by decide) _ m

/-- The reference is set although the button has been let go. -/
theorem released_set (lineRom : rom.State) :
    ∃ n, 100000080 < n ∧ rose (oSet lineRom released) n = true := by
  obtain ⟨u, hu, hlow, hset⟩ := MotorCtrl.run_slow_set lineRom
    (fun m => ⟨decide (25 * m < 100000080), decide (25 ≤ 25 * m), false⟩)
    (fun k hk => decide_eq_true (by simp only [cButton] at hk; omega)) rfl
    (fun k hk _ => decide_eq_true (by omega))
  refine ⟨25 * u + 1, by simp only [cButton] at hu; omega, ?_⟩
  have hticks : ticks (everyNth 25) (25 * u) = u := ticks_everyNth_mul (by decide) u
  have hnext : ticks (everyNth 25) (25 * u + 1) = u + 1 := by
    rw [ticks_edge (everyNth_mul u), hticks]
  rw [rose, oSet, oSet, run_released, run_released, hticks, hnext, hlow, hset]
  rfl

theorem released_flag (lineRom : rom.State) {n : Nat} (h : 100000080 < n) :
    flag lineRom released n = false := by
  refine flag_released released (m := 100000080) rfl (fun k hk => ?_) h
  exact decide_eq_false (Nat.not_lt.mpr hk)

/-- A ROM with one value. -/
def flatRom : LineRom := ⟨Unit, fun s _ => s, fun _ => 4000⟩

def flatStart : flatRom.State := ()

theorem routed_through_iff_released :
    ∃ n, rose (oSet flatStart released) n = true ∧
      ∃ a, SlowPhase (state flatStart released) a n ∧
        ¬ HeldThrough released a n := by
  obtain ⟨n, hn, hrise⟩ := released_set flatStart
  obtain ⟨a, hphase, -, hrouted⟩ :=
    (routed_through_iff flatStart released).1 n hrise
  refine ⟨n, hrise, a, hphase, fun hheld => ?_⟩
  have hflag := hrouted.mpr hheld n hphase.lt (Nat.le_refl n)
  rw [released_flag flatStart hn] at hflag
  cases hflag

theorem routedThrough_released_false :
    ¬ RoutedThrough flatStart released := by
  intro hclaim
  obtain ⟨n, hn, hrise⟩ := released_set flatStart
  obtain ⟨a, hphase, hrouted⟩ := hclaim n hrise
  have hflag := hrouted n hphase.lt (Nat.le_refl n)
  rw [released_flag flatStart hn] at hflag
  cases hflag

end HomingPath

end CncCard
