import CncCard.Homing.KeyGen
import CncCard.Homing.StateCtrl

/-!
The homing drives `motor_ctrl` (Z) and `motor_ctrl_xy` (X and Y): debounced keys in
front of a state machine. The limit switch reaches the machine as the one-cycle
pulse of its channel, which only `FAST` looks at, so a limit switch that is held
stops the drive only if the pulse falls into the stay in `FAST`.
-/

namespace CncCard
open Clocked

variable {rom : LineRom}

structure MotorCtrl (rom : LineRom) where
  keys : KeyGen
  ctrl : StateCtrl rom

structure KeyInput where
  iKeyA : Bool
  iKeyB : Bool
  iKeyC : Bool

structure KeyInputXy extends KeyInput where
  zFinished : Bool

namespace MotorCtrl

def powerUp (lineRom : rom.State) : MotorCtrl rom := ⟨.cleared, .powerUp lineRom⟩

end MotorCtrl

def motorCtrl (s : MotorCtrl rom) (i : KeyInput) : MotorCtrl rom where
  keys := keyGen s.keys i.iKeyA i.iKeyB i.iKeyC
  ctrl := stateCtrl s.ctrl s.keys.key1.rdy s.keys.key2.rdy s.keys.key3.rdy

/-- The start key of X and Y is not debounced; it counts once Z has finished. -/
def motorCtrlXy (s : MotorCtrl rom) (i : KeyInputXy) : MotorCtrl rom where
  keys := keyGen s.keys false i.iKeyB i.iKeyC
  ctrl := stateCtrlXy s.ctrl i.iKeyA s.keys.key2.rdy s.keys.key3.rdy i.zFinished

/-- A limit switch that has been held for `cButton` cycles and the two registers
behind it is never met in `FAST`. -/
def LimitSafe (state : Nat → HomingState) (limit : Nat → Bool) : Prop :=
  ∀ t, (∀ k, t ≤ k + (cButton + 2) → k < t → limit k = true) → cButton + 2 ≤ t →
    state t ≠ .fast

/-- No step enters `FAST` while the limit switch is held and its pulse is over. -/
def NoLateEntry (enters : Nat → Bool) (count : Nat → Nat) (limit : Nat → Bool) : Prop :=
  ∀ t, enters t = true → limit t = true → count t ≤ cButton

/-- What both drives have in common: a state that is entered in the cycles `enters`
and left on the pulse of the limit channel. -/
structure LimitWatch (state : Nat → HomingState) (enters limit : Nat → Bool)
    (channel : Nat → KeyChannel) : Prop where
  counts : channel = KeyChannel.run limit
  start : state 0 ≠ .fast
  enter : ∀ t, enters t = true → state (t + 1) = .fast
  stay : ∀ t, state (t + 1) = .fast →
    enters t = true ∨ (state t = .fast ∧ (channel t).rdy = false)

namespace LimitWatch

variable {state : Nat → HomingState} {enters limit : Nat → Bool}
  {channel : Nat → KeyChannel}

/-- While entries are on time, `FAST` is left before its channel has counted past
the pulse. -/
theorem fast_count (h : LimitWatch state enters limit channel)
    (hlate : NoLateEntry enters (fun t => (channel t).count) limit) (t : Nat) :
    state t = .fast → (channel t).count ≤ cButton + 1 ∧
      ((channel t).count = cButton + 1 → (channel t).rdy = true) := by
  induction t with
  | zero => exact fun hs => absurd hs h.start
  | succ t ih =>
      intro hs
      have hnext : channel (t + 1) = (channel t).clock (limit t) := by
        rw [h.counts, KeyChannel.run_succ]
      have hle := KeyChannel.clock_count_le (channel t) (limit t)
      have hcount : (channel (t + 1)).count = 0 ∨ (channel t).count ≤ cButton := by
        rcases h.stay t hs with henter | ⟨hfast, hrdy⟩
        · cases hkey : limit t with
          | false => exact .inl (by rw [hnext, hkey, KeyChannel.clock_released])
          | true => exact .inr (hlate t henter hkey)
        · obtain ⟨hbound, hpulse⟩ := ih hfast
          refine .inr (Nat.le_of_lt_succ (Nat.lt_of_le_of_ne hbound ?_))
          intro heq
          rw [hpulse heq] at hrdy
          cases hrdy
      rw [hnext] at hcount ⊢
      rw [KeyChannel.clock_rdy]
      constructor <;> omega

theorem limitSafe_iff (h : LimitWatch state enters limit channel) :
    LimitSafe state limit ↔ NoLateEntry enters (fun t => (channel t).count) limit := by
  constructor
  · intro hsafe t henter hkey
    by_contra hlate
    have hheld (k : Nat) (hk : k < (channel t).count) : ∃ s, t = s + k + 1 ∧ limit s = true := by
      rw [h.counts] at hk
      exact KeyChannel.held_of_count hk
    obtain ⟨_, ht, -⟩ := hheld cButton (by simpa using hlate)
    refine hsafe (t + 1) ?_ (by omega) (h.enter t henter)
    intro s hs hst
    rcases Nat.lt_or_eq_of_le (Nat.le_of_lt_succ hst) with hlt | rfl
    · obtain ⟨s', hs', hkey'⟩ := hheld (t - s - 1) (by simp only at hlate; omega)
      obtain rfl : s' = s := by omega
      exact hkey'
    · exact hkey
  · intro hlate t hheld ht hs
    obtain ⟨s, rfl⟩ : ∃ s, t = s + (cButton + 2) := ⟨t - (cButton + 2), by omega⟩
    have hcount := KeyChannel.le_count_of_held (s := s) (n := cButton + 2)
      (fun k hk hkt => hheld k (by omega) (by omega)) (by decide)
    rw [← h.counts] at hcount
    have := (h.fast_count hlate _ hs).1
    omega

end LimitWatch

namespace MotorCtrl

def run (lineRom : rom.State) (inp : Nat → KeyInput) : Nat → MotorCtrl rom :=
  trace motorCtrl (powerUp lineRom) inp

def runXy (lineRom : rom.State) (inp : Nat → KeyInputXy) : Nat → MotorCtrl rom :=
  trace motorCtrlXy (powerUp lineRom) inp

def enters (r : Nat → MotorCtrl rom) (t : Nat) : Bool :=
  (r t).ctrl.entersFast (r t).keys.key1.rdy

def entersXy (r : Nat → MotorCtrl rom) (inp : Nat → KeyInputXy) (t : Nat) : Bool :=
  (r t).ctrl.entersFast ((inp t).iKeyA && (inp t).zFinished)

theorem run_rState_succ (lineRom : rom.State) (inp : Nat → KeyInput) (t : Nat) :
    (run lineRom inp (t + 1)).ctrl.rState =
      (run lineRom inp t).ctrl.nextState (run lineRom inp t).keys.key1.rdy
        (run lineRom inp t).keys.key2.rdy (run lineRom inp t).keys.key3.rdy :=
  StateCtrl.clock_rState _ _ _ _ _

theorem runXy_rState_succ (lineRom : rom.State) (inp : Nat → KeyInputXy) (t : Nat) :
    (runXy lineRom inp (t + 1)).ctrl.rState =
      (runXy lineRom inp t).ctrl.nextState ((inp t).iKeyA && (inp t).zFinished)
        (runXy lineRom inp t).keys.key2.rdy (runXy lineRom inp t).keys.key3.rdy :=
  StateCtrl.clock_rState _ _ _ _ _

theorem run_limitWatch (lineRom : rom.State) (inp : Nat → KeyInput) :
    LimitWatch (fun t => (run lineRom inp t).ctrl.rState) (enters (run lineRom inp))
      (fun t => (inp t).iKeyC) (fun t => (run lineRom inp t).keys.key3) where
  counts := by
    funext t
    exact trace_part (p := fun s : MotorCtrl rom => s.keys.key3) (fun _ _ => rfl) t
  start := by simp [run, powerUp, StateCtrl.powerUp]
  enter := by
    intro t h
    rw [run_rState_succ]
    exact StateCtrl.nextState_of_entersFast _ _ h
  stay := by
    intro t h
    rw [run_rState_succ] at h
    exact StateCtrl.fast_of_nextState h

theorem runXy_limitWatch (lineRom : rom.State) (inp : Nat → KeyInputXy) :
    LimitWatch (fun t => (runXy lineRom inp t).ctrl.rState) (entersXy (runXy lineRom inp) inp)
      (fun t => (inp t).iKeyC) (fun t => (runXy lineRom inp t).keys.key3) where
  counts := by
    funext t
    have hstep (s : MotorCtrl rom) (i : KeyInputXy) :
        (motorCtrlXy s i).keys.key3 = s.keys.key3.clock i.iKeyC := rfl
    exact trace_part (p := fun s : MotorCtrl rom => s.keys.key3) hstep t
  start := by simp [runXy, powerUp, StateCtrl.powerUp]
  enter := by
    intro t h
    rw [runXy_rState_succ]
    exact StateCtrl.nextState_of_entersFast _ _ h
  stay := by
    intro t h
    rw [runXy_rState_succ] at h
    exact StateCtrl.fast_of_nextState h

theorem run_key1 (lineRom : rom.State) (inp : Nat → KeyInput) (t : Nat) :
    (run lineRom inp t).keys.key1 = KeyChannel.run (fun t => (inp t).iKeyA) t :=
  trace_part (p := fun s : MotorCtrl rom => s.keys.key1) (fun _ _ => rfl) t

theorem run_key2 (lineRom : rom.State) (inp : Nat → KeyInput) (t : Nat) :
    (run lineRom inp t).keys.key2 = KeyChannel.run (fun t => (inp t).iKeyB) t :=
  trace_part (p := fun s : MotorCtrl rom => s.keys.key2) (fun _ _ => rfl) t

/-- A start key held since power-up leaves the drive in `IDLE` until its pulse. -/
theorem run_idle (lineRom : rom.State) (inp : Nat → KeyInput) {t : Nat}
    (hstart : ∀ k, k + 1 < t → (inp k).iKeyA = true) (ht : t ≤ cButton + 1) :
    (run lineRom inp t).ctrl.rState = .idle := by
  induction t with
  | zero => rfl
  | succ t ih =>
      have hrdy : (run lineRom inp t).keys.key1.rdy = false := by
        rw [run_key1]
        cases t with
        | zero => rfl
        | succ t =>
            have hcount := KeyChannel.count_of_held (fun t => (inp t).iKeyA)
              (fun k (hk : k < t) => hstart k (by omega))
              (by simp only [cButton, cMax] at ht ⊢; omega)
            rw [KeyChannel.run_succ, ← Bool.not_eq_true, KeyChannel.clock_rdy, hcount]
            omega
      rw [run_rState_succ, StateCtrl.nextState, ih (fun k hk => hstart k (by omega)) (by omega),
        hrdy]
      rfl

/-- A held limit switch keeps a drive out of `FAST` if and only if no step enters
`FAST` after the switch has been held past its pulse. -/
theorem limitSafe_iff_noLateEntry (rom : LineRom) (lineRom : rom.State) :
    (∀ inp, LimitSafe (fun t => (run lineRom inp t).ctrl.rState) (fun t => (inp t).iKeyC) ↔
      NoLateEntry (enters (run lineRom inp)) (fun t => (run lineRom inp t).keys.key3.count)
        fun t => (inp t).iKeyC) ∧
    ∀ inp, LimitSafe (fun t => (runXy lineRom inp t).ctrl.rState) (fun t => (inp t).iKeyC) ↔
      NoLateEntry (entersXy (runXy lineRom inp) inp)
        (fun t => (runXy lineRom inp t).keys.key3.count) fun t => (inp t).iKeyC :=
  ⟨fun inp => (run_limitWatch lineRom inp).limitSafe_iff,
    fun inp => (runXy_limitWatch lineRom inp).limitSafe_iff⟩

/-- Start key and limit switch pressed together: both pulses come in the same cycle,
and the limit pulse is over when the drive is in `FAST`. -/
theorem limitSafe_together_false :
    ¬ LimitSafe (fun t => (@run ⟨Unit, fun s _ => s, fun _ => 4000⟩ ()
      (fun _ => ⟨true, false, true⟩) t).ctrl.rState) (fun _ => true) := by
  intro hsafe
  have hwatch := @run_limitWatch ⟨Unit, fun s _ => s, fun _ => 4000⟩ ()
    (fun _ => ⟨true, false, true⟩)
  have hidle := @run_idle ⟨Unit, fun s _ => s, fun _ => 4000⟩ ()
    (fun _ => ⟨true, false, true⟩) _ (fun _ _ => rfl) (Nat.le_refl (cButton + 1))
  have hheld {t : Nat} (ht : t ≤ cMax) : (KeyChannel.run (fun _ => true) t).count = t :=
    KeyChannel.count_of_held _ (fun _ _ => rfl) ht
  have hlate := hwatch.limitSafe_iff.mp hsafe (cButton + 1) ?_ rfl
  · simp only [congrFun hwatch.counts, hheld (t := cButton + 1) (by decide)] at hlate
    omega
  · rw [enters, StateCtrl.entersFast, hidle, run_key1, KeyChannel.run_succ]
    exact (KeyChannel.clock_rdy _ _).mpr (hheld (by decide))

end MotorCtrl

end CncCard
