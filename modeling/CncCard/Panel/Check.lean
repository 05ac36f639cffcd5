import CncCard.Panel.Debouncer

/-!
The run latch `check`: `valid` releases the interpolation. It is meant to be set by the
start button and to stay until a stop button, a limit switch, the auxiliary stop or the
end of the motion data, but a released start button takes it back as well.
-/

namespace CncCard
open Clocked

structure CheckInput where
  start : Bool
  stop : Bool
  empty : Bool
  /-- `s1` to `s7`. -/
  s : Fin 7 → Bool

structure Check where
  start : Debouncer
  stop : Debouncer
  /-- `f1` to `f7` with their counters. -/
  f : Fin 7 → Debouncer
  valid : Bool

namespace Check

/-- What takes `valid` back before anything else is looked at. -/
def stopped (s : Check) : Bool :=
  s.stop.flag || (s.f 0).flag || (s.f 1).flag || (s.f 2).flag || (s.f 3).flag ||
    (s.f 4).flag || (s.f 5).flag || (s.f 6).flag

def powerUp : Check := ⟨.powerUp, .powerUp, fun _ => .powerUp, false⟩

end Check

def check (s : Check) (i : CheckInput) : Check where
  start := s.start.clock i.start
  stop := s.stop.clock i.stop
  f n := (s.f n).clock (i.s n)
  valid :=
    if s.stopped then false
    else if s.start.flag then true
    else if i.empty then false
    else false

namespace Check

theorem stopped_iff (s : Check) :
    s.stopped = true ↔ s.stop.flag = true ∨ ∃ n, (s.f n).flag = true := by
  simp only [stopped, Bool.or_eq_true, Fin.exists_fin_succ, IsEmpty.exists_iff]
  simp [or_assoc]

@[simp] theorem check_valid (s : Check) (i : CheckInput) :
    (check s i).valid = (!s.stopped && s.start.flag) := by
  simp only [check]
  cases s.stopped with
  | true => rfl
  | false => cases s.start.flag <;> simp

def run (s : Check) (inp : Nat → CheckInput) : Nat → Check := trace check s inp

variable (s : Check) (inp : Nat → CheckInput)

theorem run_succ (t : Nat) : run s inp (t + 1) = check (run s inp t) (inp t) := rfl

section Latch

/-- `valid` is set by the start flag only, and from then on it is up until a stop flag or
an empty queue is seen. -/
structure Latches (r : Nat → Check) (inp : Nat → CheckInput) : Prop where
  rises : ∀ t, (r t).valid = false → (r (t + 1)).valid = true → (r t).start.flag = true
  stays : ∀ t, (r t).valid = true → (r t).stopped = false → (inp t).empty = false →
    (r (t + 1)).valid = true
  falls : ∀ t, (r t).valid = true → (r t).stopped = true ∨ (inp t).empty = true →
    (r (t + 1)).valid = false

variable {s inp}

/-- `valid` latches in a run if and only if, whenever it is up and no stop flag is, the
start flag is up exactly while the queue is not empty. -/
theorem latches_iff (start stop : Debouncer) (f : Fin 7 → Debouncer)
    (inp : Nat → CheckInput) :
    Latches (run ⟨start, stop, f, false⟩ inp) inp ↔
      ∀ t, (run ⟨start, stop, f, false⟩ inp t).valid = true →
        (run ⟨start, stop, f, false⟩ inp t).stopped = false →
        (run ⟨start, stop, f, false⟩ inp t).start.flag = !(inp t).empty := by
  constructor
  · intro h t hvalid hstopped
    have hnext := check_valid (run ⟨start, stop, f, false⟩ inp t) (inp t)
    rw [← run_succ, hstopped, Bool.not_false, Bool.true_and] at hnext
    cases hempty : (inp t).empty with
    | false => rw [← hnext, h.stays t hvalid hstopped hempty, Bool.not_false]
    | true => rw [← hnext, h.falls t hvalid (.inr hempty), Bool.not_true]
  · intro h
    refine ⟨?_, ?_, ?_⟩
    · intro t _ hvalid
      rw [run_succ, check_valid, Bool.and_eq_true] at hvalid
      exact hvalid.2
    · intro t hvalid hstopped hempty
      rw [run_succ, check_valid, h t hvalid hstopped, hstopped, hempty]
      rfl
    · intro t hvalid hseen
      rw [run_succ, check_valid]
      cases hstopped : (run ⟨start, stop, f, false⟩ inp t).stopped with
      | true => rfl
      | false =>
          rw [hstopped] at hseen
          rw [h t hvalid hstopped, hseen.resolve_left Bool.false_ne_true]
          rfl

end Latch

section PowerUp

theorem run_start (t : Nat) :
    (run powerUp inp t).start = Debouncer.run (fun k => (inp k).start) t :=
  trace_part (p := Check.start) (fun _ _ => rfl) t

theorem run_stop (t : Nat) :
    (run powerUp inp t).stop = Debouncer.run (fun k => (inp k).stop) t :=
  trace_part (p := Check.stop) (fun _ _ => rfl) t

theorem run_f (n : Fin 7) (t : Nat) :
    (run powerUp inp t).f n = Debouncer.run (fun k => (inp k).s n) t := by
  have hstep (s : Check) (i : CheckInput) : (check s i).f n = (s.f n).clock (i.s n) := rfl
  exact trace_part (p := fun s : Check => s.f n) hstep t

/-- The inputs that take `valid` back: the stop button and `s1` to `s7`. -/
inductive Stopper where
  | stop
  | s (n : Fin 7)

def Stopper.level : Stopper → CheckInput → Bool
  | .stop, i => i.stop
  | .s n, i => i.s n

theorem stopped_of_held (c : Stopper) {t : Nat} (h : Held (fun k => c.level (inp k)) 126 t) :
    (run powerUp inp t).stopped = true := by
  rw [stopped_iff]
  cases c with
  | stop =>
      left
      rw [run_stop, Debouncer.run_flag]
      exact h
  | s n =>
      right
      refine ⟨n, ?_⟩
      rw [run_f, Debouncer.run_flag]
      exact h

/-- A stopper that has been closed for 127 cycles keeps `valid` down for as long as it
stays closed. -/
theorem valid_low_of_held (inp : Nat → CheckInput) (c : Stopper) (t : Nat)
    (hheld : Held (fun k => c.level (inp k)) 127 t) (u : Nat) (htu : t ≤ u)
    (hstay : ∀ k, t ≤ k → k < u → c.level (inp k) = true) :
    (run powerUp inp u).valid = false := by
  have hlong := hheld.extend htu hstay
  obtain ⟨v, rfl⟩ : ∃ v, u = v + 1 := ⟨u - 1, by have := hlong.1; omega⟩
  have hbefore := ((held_succ 126 v).mp hlong).2
  rw [run_succ, check_valid, stopped_of_held inp c hbefore]
  rfl

theorem valid_low_of_held_stop :
    Held (fun k => Stopper.level .stop ((fun _ => ⟨true, true, false, fun _ => false⟩) k)) 127 127 ∧
      (run powerUp (fun _ => ⟨true, true, false, fun _ => false⟩) 130).valid = false :=
  have hheld : Held (fun k => Stopper.level .stop
      ((fun _ => ⟨true, true, false, fun _ => false⟩) k)) 127 127 :=
    ⟨Nat.le_refl _, fun _ _ _ => rfl⟩
  ⟨hheld, valid_low_of_held (fun _ => ⟨true, true, false, fun _ => false⟩) .stop 127 hheld 130
    (by decide) fun _ _ _ => rfl⟩

/-- The start button, pressed for 126 cycles and let go, with motion data waiting. -/
def tapped (t : Nat) : CheckInput := ⟨decide (t < 126), false, false, fun _ => false⟩

theorem tapped_stopped (t : Nat) : (run powerUp tapped t).stopped = false := by
  rw [← Bool.not_eq_true, stopped_iff, run_stop, Debouncer.run_flag]
  simp only [run_f, Debouncer.run_flag, Held, tapped, Bool.false_eq_true]
  rintro (⟨hle, hall⟩ | ⟨-, hle, hall⟩)
  · exact hall (t - 1) (by omega) (by omega)
  · exact hall (t - 1) (by omega) (by omega)

theorem latches_tapped_false : ¬ Latches (run powerUp tapped) tapped := by
  intro h
  have hup : (run powerUp tapped 127).valid = true := by
    rw [run_succ, check_valid, tapped_stopped, run_start, Bool.not_false, Bool.true_and,
      Debouncer.run_flag]
    exact ⟨Nat.le_refl _, fun k _ hk => decide_eq_true hk⟩
  have hstays := h.stays 127 hup (tapped_stopped 127) rfl
  rw [run_succ, check_valid, run_start, Bool.and_eq_true, Debouncer.run_flag] at hstays
  exact absurd (hstays.2.2 126 (by decide) (by decide)) (by decide)

end PowerUp

end Check

end CncCard
