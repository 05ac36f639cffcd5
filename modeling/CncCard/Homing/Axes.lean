import CncCard.Homing.Finish
import CncCard.Homing.KeyPress
import CncCard.Homing.MotorCtrl

/-!
The homing of the three axes. X and Y look at the button itself and at `o_set` of Z, so they
begin behind a complete deceleration of Z and not before.
-/

namespace CncCard
open Clocked

variable {rom : LineRom}

structure HomingAxes (rom : LineRom) where
  uZeroZ : MotorCtrl rom
  /-- `u_zero_x` and `u_zero_y`. -/
  uZeroXy : Fin 2 → MotorCtrl rom

structure HomingAxesInput where
  keyZero : Bool
  zeroZdot : Bool
  s5 : Bool
  /-- `zero_xdot` and `zero_ydot`. -/
  zeroXydot : Fin 2 → Bool
  /-- `s3` and `s4`. -/
  s34 : Fin 2 → Bool

namespace HomingAxes

def powerUp (lineRom : rom.State) : HomingAxes rom := ⟨.powerUp lineRom, fun _ => .powerUp lineRom⟩

def clock (s : HomingAxes rom) (i : HomingAxesInput) : HomingAxes rom where
  uZeroZ := motorCtrl s.uZeroZ ⟨i.keyZero, i.zeroZdot, i.s5⟩
  uZeroXy n := motorCtrlXy (s.uZeroXy n)
    ⟨⟨i.keyZero, i.zeroXydot n, i.s34 n⟩, s.uZeroZ.ctrl.rSet⟩

/-- The pulses that the machine of Z gets in a cycle. -/
def keysZ (s : HomingAxes rom) : StateCtrl.Keys :=
  ⟨s.uZeroZ.keys.key1.rdy, s.uZeroZ.keys.key2.rdy, s.uZeroZ.keys.key3.rdy⟩

def keysXy (s : HomingAxes rom) (i : HomingAxesInput) (n : Fin 2) : StateCtrl.Keys :=
  ⟨i.keyZero && s.uZeroZ.ctrl.rSet, (s.uZeroXy n).keys.key2.rdy, (s.uZeroXy n).keys.key3.rdy⟩

def run (lineRom : rom.State) (inp : Nat → HomingAxesInput) : Nat → HomingAxes rom :=
  trace clock (powerUp lineRom) inp

section Run

variable (lineRom : rom.State) (inp : Nat → HomingAxesInput)

theorem run_succ (t : Nat) : run lineRom inp (t + 1) = (run lineRom inp t).clock (inp t) := rfl

/-- The machine of each axis runs by itself on its pulses. -/
theorem run_ctrlZ (t : Nat) : (run lineRom inp t).uZeroZ.ctrl =
    StateCtrl.run ⟨false, false⟩ lineRom (fun k => (run lineRom inp k).keysZ) t := by
  induction t with
  | zero => rfl
  | succ t ih => rw [StateCtrl.run_succ, ← ih]; rfl

theorem run_ctrlXy (n : Fin 2) (t : Nat) : ((run lineRom inp t).uZeroXy n).ctrl =
    StateCtrl.run ⟨true, true⟩ lineRom (fun k => (run lineRom inp k).keysXy (inp k) n) t := by
  induction t with
  | zero => rfl
  | succ t ih => rw [StateCtrl.run_succ, ← ih]; rfl

end Run

/-- The order of the axes, in every run, and the end of each homing whose axis meets its
switches. -/
structure Sequenced (r : Nat → HomingAxes rom) (inp : Nat → HomingAxesInput) : Prop where
  /-- X and Y begin while the reference of Z is up, behind a whole deceleration of Z. -/
  begins : ∀ n t, ((r t).uZeroXy n).ctrl.rState = .idle →
    ((r (t + 1)).uZeroXy n).ctrl.rState ≠ .idle →
    (inp t).keyZero = true ∧ ∃ a u, u ≤ t ∧
      (∀ k, u ≤ k → k ≤ t → (r k).uZeroZ.ctrl.rSet = true) ∧
      SlowPhase (fun k => (r k).uZeroZ.ctrl.rState) a u ∧
      100 ≤ edges (fun k => (r k).uZeroZ.ctrl.rClkdiv) (fun _ => true) (a + 1) (u + 1)
  /-- Z comes to its reference once it moves. -/
  zEnds : StateCtrl.Meets (fun t => (r t).uZeroZ.ctrl) (fun t => (r t).keysZ) →
    ∀ t, (r t).uZeroZ.ctrl.rState ≠ .idle → ∃ u, t ≤ u ∧ (r u).uZeroZ.ctrl.Referenced
  /-- X and Y come to theirs if the button is pressed while that of Z is up. -/
  xyEnd : ∀ n, StateCtrl.Meets (fun t => ((r t).uZeroXy n).ctrl)
      (fun t => (r t).keysXy (inp t) n) →
    ∀ t, (r t).uZeroZ.ctrl.rSet = true → (inp t).keyZero = true →
      ∃ u, t ≤ u ∧ ((r u).uZeroXy n).ctrl.Referenced

/-- A reference that is up has been set at the end of a deceleration of Z. -/
theorem exists_deceleration (lineRom : rom.State) (inp : Nat → HomingAxesInput) {t : Nat}
    (hset : (run lineRom inp t).uZeroZ.ctrl.rSet = true) : ∃ a u, u ≤ t ∧
      (∀ k, u ≤ k → k ≤ t → (run lineRom inp k).uZeroZ.ctrl.rSet = true) ∧
      SlowPhase (fun k => (run lineRom inp k).uZeroZ.ctrl.rState) a u ∧
      100 ≤ edges (fun k => (run lineRom inp k).uZeroZ.ctrl.rClkdiv) (fun _ => true) (a + 1)
        (u + 1) := by
  have hstep : StateCtrl.Stepping ⟨false, false⟩ fun t => (run lineRom inp t).uZeroZ.ctrl :=
    fun t => .inr ⟨_, _, _, rfl⟩
  induction t with
  | zero => cases hset
  | succ t ih =>
      cases hlow : (run lineRom inp t).uZeroZ.ctrl.rSet with
      | true =>
          obtain ⟨a, u, hut, hup, hphase, hcount⟩ := ih hlow
          refine ⟨a, u, Nat.le_succ_of_le hut, fun k huk hkt => ?_, hphase, hcount⟩
          rcases Nat.lt_or_eq_of_le hkt with hlt | rfl
          · exact hup k huk (Nat.le_of_lt_succ hlt)
          · exact hset
      | false =>
          have hrise : rose (fun t => (run lineRom inp t).uZeroZ.ctrl.rSet) (t + 1) = true := by
            rw [rose, hlow, hset]
            rfl
          obtain ⟨a, hphase, hcount⟩ := hstep.slowPhase_of_set rfl hrise
          refine ⟨a, t + 1, Nat.le_refl _, fun k huk hkt => ?_, hphase, hcount⟩
          obtain rfl := Nat.le_antisymm hkt huk
          exact hset

/-- In every run X and Y begin behind a deceleration of Z only, and what has begun ends. -/
theorem sequenced (lineRom : rom.State) (inp : Nat → HomingAxesInput) :
    Sequenced (run lineRom inp) inp where
  begins n t hidle hbusy := by
    have hstart : ((run lineRom inp t).keysXy (inp t) n).start = true := by
      by_contra hlow
      refine hbusy ?_
      rw [run_ctrlXy] at hidle ⊢
      rw [StateCtrl.run_rState_succ, StateCtrl.nextState, hidle, Bool.eq_false_iff.mpr hlow]
      rfl
    rw [keysXy, Bool.and_eq_true] at hstart
    refine ⟨hstart.1, ?_⟩
    exact exists_deceleration lineRom inp hstart.2
  zEnds hz t hbusy := by
    have hrun := funext (run_ctrlZ lineRom inp)
    rw [hrun] at hz
    rw [run_ctrlZ] at hbusy
    simp only [run_ctrlZ]
    exact StateCtrl.exists_referenced hz hbusy
  xyEnd n hmeets t hset hkey := by
    have hrun := funext (run_ctrlXy lineRom inp n)
    rw [hrun] at hmeets
    simp only [run_ctrlXy]
    by_cases hidle : (StateCtrl.run ⟨true, true⟩ lineRom
        (fun k => (run lineRom inp k).keysXy (inp k) n) t).rState = .idle
    · have hstart : ((run lineRom inp t).keysXy (inp t) n).start = true := by
        rw [keysXy, hset, hkey]
        rfl
      have hfast : (StateCtrl.run ⟨true, true⟩ lineRom
          (fun k => (run lineRom inp k).keysXy (inp k) n) (t + 1)).rState = .fast := by
        rw [StateCtrl.run_rState_succ, StateCtrl.nextState, hidle, hstart]
        rfl
      obtain ⟨u, htu, hu⟩ := StateCtrl.exists_referenced hmeets (t := t + 1)
        (by rw [hfast]; exact HomingState.noConfusion)
      exact ⟨u, Nat.le_of_succ_le htu, hu⟩
    · exact StateCtrl.exists_referenced hmeets hidle

/-- The button is held and each axis crosses its zero switch once in 200 ms. -/
def crossing (t : Nat) : HomingAxesInput :=
  let zero := decide (t % 8000000 < 4000001)
  ⟨true, zero, false, fun _ => zero, fun _ => false⟩

theorem streak_crossing (n : Nat) :
    streak (fun t => (crossing t).zeroZdot) (8000000 * (n + 1) + cButton) = cButton := by
  refine streak_eq_iff.mpr ⟨8000000 * (n + 1), rfl, fun k hk => ?_, fun k hk hle => ?_⟩
  · exact decide_eq_false (by omega)
  · simp only [cButton] at hle
    exact decide_eq_true (by omega)

theorem exists_crossing (n : Nat) :
    ∃ m, n ≤ m ∧ (KeyChannel.run (fun t => (crossing t).zeroZdot) m).rdy = true :=
  ⟨8000000 * (n + 1) + cButton + 1, by omega,
    (KeyChannel.run_rdy_succ _ false _).mpr (streak_crossing n)⟩

theorem open_crossing (m : Nat) : (KeyChannel.run (fun _ => false) m).rdy = false := by
  cases m with
  | zero => rfl
  | succ m =>
      refine Bool.eq_false_iff.mpr fun hrdy => ?_
      have hstreak := (KeyChannel.run_rdy_succ _ false m).mp hrdy
      cases m with
      | zero => cases hstreak
      | succ m =>
          rw [streak_succ_low rfl] at hstreak
          cases hstreak

theorem meets_crossing {r : Nat → StateCtrl rom} {inp : Nat → StateCtrl.Keys}
    (hb : ∀ m, (inp m).b = (KeyChannel.run (fun t => (crossing t).zeroZdot) m).rdy)
    (hc : ∀ m, (inp m).c = (KeyChannel.run (fun _ => false) m).rdy) :
    StateCtrl.Meets r inp where
  forth n _ := by
    obtain ⟨m, hnm, hrdy⟩ := exists_crossing n
    exact ⟨m, hnm, .inr (.inl ((hb m).trans hrdy))⟩
  back n _ := by
    obtain ⟨m, hnm, hrdy⟩ := exists_crossing n
    exact ⟨m, hnm, .inr ((hb m).trans hrdy)⟩
  zeroFirst := by
    refine ⟨0, fun m _ _ hclosed => ?_⟩
    rw [hc, open_crossing] at hclosed
    cases hclosed

theorem keys_crossing {k : Nat → KeyGen} (hstart : k 0 = .cleared)
    (hstep : ∀ m, ∃ a, k (m + 1) = keyGen (k m) a (crossing m).zeroZdot false) (m : Nat) :
    (k m).key2 = KeyChannel.run (fun t => (crossing t).zeroZdot) m ∧
      (k m).key3 = KeyChannel.run (fun _ => false) m := by
  induction m with
  | zero =>
      rw [hstart]
      exact ⟨rfl, rfl⟩
  | succ m ih =>
      obtain ⟨h2, h3⟩ := ih
      obtain ⟨a, hnext⟩ := hstep m
      rw [hnext, keyGen, h2, h3]
      exact ⟨rfl, rfl⟩

/-- Every homing of the axes that cross their switches ends. -/
theorem sequenced_crossing :
    let r := @run ⟨Unit, fun s _ => s, fun _ => 4000⟩ () crossing
    Sequenced r crossing ∧
      (∀ t, (r t).uZeroZ.ctrl.rState ≠ .idle → ∃ u, t ≤ u ∧ (r u).uZeroZ.ctrl.Referenced) ∧
      ∀ n t, (r t).uZeroZ.ctrl.rSet = true → ∃ u, t ≤ u ∧ ((r u).uZeroXy n).ctrl.Referenced := by
  have hz := keys_crossing (k := fun m =>
    (@run ⟨Unit, fun s _ => s, fun _ => 4000⟩ () crossing m).uZeroZ.keys) rfl fun _ => ⟨_, rfl⟩
  have hxy (n : Fin 2) := keys_crossing (k := fun m =>
    ((@run ⟨Unit, fun s _ => s, fun _ => 4000⟩ () crossing m).uZeroXy n).keys) rfl
      fun _ => ⟨_, rfl⟩
  have hall := @sequenced ⟨Unit, fun s _ => s, fun _ => 4000⟩ () crossing
  refine ⟨hall, hall.zEnds (meets_crossing ?_ ?_), fun n t hset =>
    hall.xyEnd n (meets_crossing ?_ ?_) t hset rfl⟩
  · exact fun m => congrArg KeyChannel.rdy (hz m).1
  · exact fun m => congrArg KeyChannel.rdy (hz m).2
  · exact fun m => congrArg KeyChannel.rdy (hxy n m).1
  · exact fun m => congrArg KeyChannel.rdy (hxy n m).2

end HomingAxes

end CncCard
