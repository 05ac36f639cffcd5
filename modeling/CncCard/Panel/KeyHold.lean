import CncCard.Panel.Check
import CncCard.Panel.Jog

/-!
The law of the debouncer, for all the switches that have one: the key of `key_hold`, the
button of `zero_sel`, the keys and limit switches of `jog` and the inputs of `check`.
-/

namespace CncCard
open Clocked

/-- The register block of `key_hold`; `key_out` is its flag. -/
def keyHold (s : Debouncer) (keyIn : Bool) : Debouncer :=
  if keyIn then
    if s.count = 0x7d then { flag := true, count := 0 }
    else { flag := s.flag, count := s.count + 1 }
  else { flag := false, count := 0 }

/-- The register block of `zero_sel`, whose flag chooses between homing and jog. -/
def zeroSelClock (s : Debouncer) (szero : Bool) : Debouncer :=
  if szero then
    if s.count = 0x7d then { flag := true, count := 0 } else { s with count := s.count + 1 }
  else { flag := false, count := 0 }

/-- The pair of assignments that `check` has for `f1` and `c1`, and likewise for the others. -/
def checkF (f : Debouncer) (s : Bool) : Debouncer where
  flag := if s && f.count == 0x7d then true else if s then f.flag else false
  count := if s then (if f.count = 0x7d then 0 else f.count + 1) else 0

namespace Debouncer

theorem keyHold_eq : keyHold = clock := rfl

theorem zeroSelClock_eq : zeroSelClock = clock := rfl

theorem checkF_eq : checkF = clock := by
  funext f s
  rw [checkF, clock]
  cases s with
  | false => rfl
  | true =>
      by_cases hfull : f.count = 0x7d
      · rw [hfull]
        rfl
      · simp only [if_neg hfull, beq_false_of_ne hfull]
        rfl

/-- The flag is up exactly while the input has been high in the last 126 samples. The counter
goes round below it, the flag stays for as long as the input does, and it is down behind a
low sample. -/
structure Debounces (level : Nat → Bool) (r : Nat → Debouncer) : Prop where
  flag : ∀ t, (r t).flag = true ↔ Held level 126 t
  wraps : ∀ t, level t = true →
    (r (t + 1)).count = if (r t).count = 0x7d then 0 else (r t).count + 1
  stays : ∀ t u, t ≤ u → (r t).flag = true → (∀ k, t ≤ k → k < u → level k = true) →
    (r u).flag = true
  drops : ∀ t, level t = false → (r (t + 1)).flag = false

theorem debounces (level : Nat → Bool) : Debounces level (run level) where
  flag := run_flag level
  wraps t hhigh := by
    rw [run_succ, clock, if_pos hhigh]
    split <;> rfl
  stays t u htu hflag hhigh :=
    (run_flag level u).mpr (((run_flag level t).mp hflag).extend htu hhigh)
  drops t hlow := by
    rw [run_succ, hlow]
    exact clock_flag_open _

/-- Every switch of the card that has a debouncer gets by the law. -/
structure AllDebounce : Prop where
  keyHold : ∀ keyIn, Debounces keyIn (trace keyHold powerUp keyIn)
  zeroSel : ∀ szero, Debounces szero (trace zeroSelClock powerUp szero)
  checkF : ∀ s, Debounces s (trace checkF powerUp s)
  start : ∀ inp : Nat → CheckInput,
    Debounces (fun t => (inp t).start) fun t => (Check.run .powerUp inp t).start
  stop : ∀ inp : Nat → CheckInput,
    Debounces (fun t => (inp t).stop) fun t => (Check.run .powerUp inp t).stop
  limit : ∀ (inp : Nat → CheckInput) (n : Fin 7),
    Debounces (fun t => (inp t).s n) fun t => (Check.run .powerUp inp t).f n
  jogPos : ∀ (inp : Nat → JogInput) (ax : Axis),
    Debounces (fun t => (inp t).pos ax) fun t => ((Jog.run inp t).axis ax).pos
  jogNeg : ∀ (inp : Nat → JogInput) (ax : Axis),
    Debounces (fun t => (inp t).neg ax) fun t => ((Jog.run inp t).axis ax).neg
  jogLimit : ∀ (inp : Nat → JogInput) (n : Fin 6),
    Debounces (fun t => (inp t).s n) fun t => (Jog.run inp t).f n

theorem allDebounce : AllDebounce where
  keyHold keyIn := keyHold_eq ▸ debounces keyIn
  zeroSel szero := zeroSelClock_eq ▸ debounces szero
  checkF s := checkF_eq ▸ debounces s
  start inp := by
    simp only [Check.run_start]
    exact debounces _
  stop inp := by
    simp only [Check.run_stop]
    exact debounces _
  limit inp n := by
    simp only [Check.run_f]
    exact debounces _
  jogPos inp ax := by
    simp only [Jog.run_pos]
    exact debounces _
  jogNeg inp ax := by
    simp only [Jog.run_neg]
    exact debounces _
  jogLimit inp n := by
    simp only [Jog.run_f]
    exact debounces _

end Debouncer

end CncCard
