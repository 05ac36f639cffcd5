import CncCard.Clocked.Square
import CncCard.Motion.Sources

/-!
How far a key moves an axis. While one motion goes on from standstill the generator makes a
square wave, so the time that the key is held says how many pulses come out at the pins.
-/

namespace CncCard
open Clocked

/-- Half a period of the generators. -/
def jogHalf : Nat := 15626

namespace JogAxis

/-- The generator of a direction has run for `n` cycles. -/
structure Running (s : JogAxis) (dir : Bool) (n : Nat) : Prop where
  count : (s.cntPuls dir).toNat = n % jogHalf
  puls : s.puls = square jogHalf n

variable {s : JogAxis} {dir : Bool}

theorem Running.clock {n : Nat} (h : s.Running dir n) (pos neg stopNeg stopPos : Bool)
    (hasks : s.asks dir = true) (hstop : (if dir then stopPos else stopNeg) = false) :
    (s.clock pos neg stopNeg stopPos).Running dir (n + 1) := by
  obtain ⟨-, hcount, hpuls⟩ := clock_running s pos neg stopNeg stopPos hasks hstop
  obtain ⟨hround, hwave⟩ := divider_step (show jogPeriod.toNat + 1 = jogHalf from rfl) h.count
  refine ⟨?_, ?_⟩
  · rw [hcount, hround]
  · rw [hpuls, h.puls, hwave]

theorem running_of_idle (pos neg stopNeg stopPos : Bool) (hasks : ∀ dir, s.asks dir = false) :
    (s.clock pos neg stopNeg stopPos).Running dir 0 := by
  obtain ⟨hpuls, hcount⟩ := clock_idle s pos neg stopNeg stopPos hasks
  refine ⟨?_, hpuls.trans (square_zero jogHalf).symm⟩
  rw [hcount]
  rfl

/-- The direction output shows a positive motion that is not stopped. -/
theorem clock_dir (s : JogAxis) (pos neg stopNeg stopPos : Bool) :
    (s.clock pos neg stopNeg stopPos).dir = (s.asks true && !stopPos) := by
  simp only [clock, pulse, asks, apply_ite JogAxis.dir, ite_self]
  cases s.neg.flag with
  | true => rfl
  | false =>
      cases s.pos.flag with
      | true => cases stopPos <;> rfl
      | false => rfl

end JogAxis

namespace Drive

/-- Motion is asked for: the key of the direction has been held for 126 cycles, and for the
positive one not the other key as well. -/
def Wants (inp : Nat → DriveInput) (ax : Axis) (dir : Bool) (t : Nat) : Prop :=
  Held (fun k => (inp k).jogKey ax dir) 126 t ∧
    (dir = true → ¬ Held (fun k => (inp k).jogKey ax false) 126 t)

/-- The switch that the generator looks at has been closed for as long. -/
def Blocked (inp : Nat → DriveInput) (ax : Axis) (dir : Bool) (t : Nat) : Prop :=
  Held (fun k => (inp k).s (jogStop ax dir)) 126 t

/-- What the keys do to the pins of an axis that they have to themselves. -/
structure Strokes (r : Nat → Drive) (inp : Nat → DriveInput) (ax : Axis) : Prop where
  dir : ∀ t, (r (t + 1)).source ax = .jog →
    ((r (t + 1)).dir (inp (t + 1)) ax = true ↔ Wants inp ax true t ∧ ¬ Blocked inp ax true t)
  quiet : ∀ t, (r (t + 1)).source ax = .jog →
    (∀ dir, Wants inp ax dir t → Blocked inp ax dir t) →
    (r (t + 1)).puls (inp (t + 1)) ax = false
  stroke : ∀ dir a n, (∀ d, ¬ Wants inp ax d a) →
    (∀ k < n, Wants inp ax dir (a + 1 + k) ∧ ¬ Blocked inp ax dir (a + 1 + k)) →
    (∀ k ≤ n, (r (a + 1 + k)).source ax = .jog) →
    pinPulses r inp ax (a + 1) (a + 1 + (n + 1)) = (n / jogHalf + 1) / 2

section Run

variable (fifo33 : RegFifo Command 2048) (fifo31 : RegFifo (BitVec 64) 2048)
  (inp : Nat → DriveInput) (ax : Axis)

theorem asks_iff (dir : Bool) (t : Nat) :
    ((run fifo33 fifo31 inp t).jog.axis ax).asks dir = true ↔ Wants inp ax dir t := by
  have hneg : ((run fifo33 fifo31 inp t).jog.axis ax).neg.flag = true ↔
      Held (fun k => (inp k).jogKey ax false) 126 t := by
    rw [run_jog, Jog.run_neg, Debouncer.run_flag]
    rfl
  cases dir with
  | false => exact hneg.trans ⟨fun h => ⟨h, fun hdir => nomatch hdir⟩, fun h => h.1⟩
  | true =>
      have hpos : ((run fifo33 fifo31 inp t).jog.axis ax).pos.flag = true ↔
          Held (fun k => (inp k).jogKey ax true) 126 t := by
        rw [run_jog, Jog.run_pos, Debouncer.run_flag]
        rfl
      rw [JogAxis.asks, if_pos rfl, Bool.and_eq_true, Bool.not_eq_true', ← Bool.not_eq_true,
        hneg, hpos]
      exact ⟨fun h => ⟨h.2, fun _ => h.1⟩, fun h => ⟨h.2 rfl, h.1⟩⟩

theorem stop_iff (dir : Bool) (t : Nat) :
    (run fifo33 fifo31 inp t).jog.stop ax dir = true ↔ Blocked inp ax dir t := by
  rw [run_jog, Jog.stop, Jog.run_f, Debouncer.run_flag]
  rfl

theorem jog_axis_succ (t : Nat) : (run fifo33 fifo31 inp (t + 1)).jog.axis ax =
    ((run fifo33 fifo31 inp t).jog.axis ax).clock ((inp t).pos ax) ((inp t).neg ax)
      ((run fifo33 fifo31 inp t).jog.stop ax false)
      ((run fifo33 fifo31 inp t).jog.stop ax true) := rfl

/-- From standstill on the generator of the motion runs. -/
theorem running_of_wants {dir : Bool} {a n : Nat} (hidle : ∀ d, ¬ Wants inp ax d a)
    (hgoes : ∀ k < n, Wants inp ax dir (a + 1 + k) ∧ ¬ Blocked inp ax dir (a + 1 + k)) :
    ((run fifo33 fifo31 inp (a + 1 + n)).jog.axis ax).Running dir n := by
  induction n with
  | zero =>
      rw [Nat.add_zero, jog_axis_succ]
      refine JogAxis.running_of_idle _ _ _ _ fun d => ?_
      rw [← Bool.not_eq_true, asks_iff]
      exact hidle d
  | succ n ih =>
      obtain ⟨hwants, hopen⟩ := hgoes n (Nat.lt_succ_self n)
      rw [← Nat.add_assoc, jog_axis_succ]
      refine (ih fun k hk => hgoes k (Nat.lt_succ_of_lt hk)).clock _ _ _ _
        ((asks_iff fifo33 fifo31 inp ax dir _).mpr hwants) ?_
      rw [Jog.stop_cases, ← Bool.not_eq_true, stop_iff]
      exact hopen

variable {ax}

theorem puls_jog {t : Nat} (hsource : (run fifo33 fifo31 inp t).source ax = .jog) :
    (run fifo33 fifo31 inp t).puls (inp t) ax =
      ((run fifo33 fifo31 inp t).jog.axis ax).puls := by
  rw [(pins _ (inp t) ax).1, hsource]
  rfl

theorem dir_jog {t : Nat} (hsource : (run fifo33 fifo31 inp t).source ax = .jog) :
    (run fifo33 fifo31 inp t).dir (inp t) ax =
      ((run fifo33 fifo31 inp t).jog.axis ax).dir := by
  rw [(pins _ (inp t) ax).2, hsource]
  rfl

theorem jog_quiet {t : Nat} (hstill : ∀ dir, Wants inp ax dir t → Blocked inp ax dir t) :
    ((run fifo33 fifo31 inp (t + 1)).jog.axis ax).puls = false := by
  rw [jog_axis_succ, ← Bool.not_eq_true]
  intro hhigh
  obtain ⟨hasks, hopen⟩ := JogAxis.asks_of_puls _ _ _ _ _ hhigh
  rw [Jog.stop_cases] at hopen
  have hblocked := (stop_iff fifo33 fifo31 inp ax _ t).mpr
    (hstill _ ((asks_iff fifo33 fifo31 inp ax _ t).mp hasks))
  exact Bool.false_ne_true (hopen.symm.trans hblocked)

end Run

/-- In every run from power-up. -/
theorem strokes_of_run (fifo33 : RegFifo Command 2048) (fifo31 : RegFifo (BitVec 64) 2048)
    (inp : Nat → DriveInput) (ax : Axis) : Strokes (run fifo33 fifo31 inp) inp ax where
  dir t hsource := by
    rw [dir_jog fifo33 fifo31 inp hsource, jog_axis_succ, JogAxis.clock_dir, Bool.and_eq_true,
      Bool.not_eq_true', ← Bool.not_eq_true, asks_iff, stop_iff]
  quiet t hsource hstill := by
    rw [puls_jog fifo33 fifo31 inp hsource]
    exact jog_quiet fifo33 fifo31 inp hstill
  stroke dir a n hidle hgoes hsource := by
    have hwave (k : Nat) (hk : k ≤ n) :
        (run fifo33 fifo31 inp (a + 1 + k)).puls (inp (a + 1 + k)) ax = square jogHalf k := by
      rw [puls_jog fifo33 fifo31 inp (hsource k hk)]
      exact (running_of_wants fifo33 fifo31 inp ax hidle
        fun j hj => hgoes j (Nat.lt_of_lt_of_le hj hk)).puls
    rw [pinPulses, ← edges_restart _ _ (hwave 0 (Nat.zero_le n)), ← edges_square (by decide) n]
    refine edges_congr fun t _ ht => ?_
    rw [rose_congr _ (square jogHalf) fun k hk =>
      hwave k (Nat.le_of_lt_succ (Nat.lt_of_le_of_lt hk ht))]

end Drive

end CncCard
