import CncCard.Clocked.Mux
import CncCard.Motion.Path
import CncCard.Panel.Check
import CncCard.Panel.Jog
import Mathlib.Data.Fintype.Basic

/-!
Who moves the machine: the pins of an axis are those of the program, of the homing, of the
jog keys or of the hand wheel. `jog_sel` chooses between the last two, `zero_sel` puts the
homing before them and `sel_assign` the program before all; the axis A has no homing. The
signals of the hand wheel and of the homing come from circuits with other clocks.
-/

namespace CncCard
open Clocked

structure DriveInput where
  start : Bool
  stop : Bool
  /-- `s1` to `s6`, which `check` and `jog` share. -/
  s : Fin 6 → Bool
  zStop : Bool
  pos : Axis → Bool
  neg : Axis → Bool
  hwValid : Bool
  keyZero : Bool
  dirHw : Axis → Bool
  pulsHw : Axis → Bool
  dirZero : Axis → Bool
  pulsZero : Axis → Bool
  fifo33Write : Option Command
  fifo31Write : Option (BitVec 64)

/-- The jog key of a direction, 1 for positive. -/
def DriveInput.jogKey (i : DriveInput) (ax : Axis) (dir : Bool) : Bool :=
  if dir then i.pos ax else i.neg ax

structure Drive where
  check : Check
  path : MotionPath
  jog : Jog
  /-- `cnt` and `flag` of `jog_sel`; the flag is up without the hand wheel. -/
  jogSel : Debouncer
  zeroSel : Debouncer

inductive Source where
  | program | zero | jog | handWheel
  deriving DecidableEq

instance : Fintype Source where
  elems := {.program, .zero, .jog, .handWheel}
  complete s := by cases s <;> decide

namespace Drive

/-- `jog_sel`, for directions and for pulses. -/
def jogSelect (s : Drive) (ofJog ofHw : Bool) : Bool := if s.jogSel.flag then ofJog else ofHw

/-- `zero_sel`, which A does not pass. -/
def zeroSelect (s : Drive) (ofZero ofJog : Bool) : Axis → Bool
  | .a => ofJog
  | _ => if s.zeroSel.flag then ofZero else ofJog

def dirJog (s : Drive) (i : DriveInput) (ax : Axis) : Bool :=
  s.zeroSelect (i.dirZero ax) (s.jogSelect (s.jog.axis ax).dir (i.dirHw ax)) ax

def pulsJog (s : Drive) (i : DriveInput) (ax : Axis) : Bool :=
  s.zeroSelect (i.pulsZero ax) (s.jogSelect (s.jog.axis ax).puls (i.pulsHw ax)) ax

def checkInput (s : Drive) (i : DriveInput) : CheckInput where
  start := i.start
  stop := i.stop
  empty := s.path.fifo33.isEmpty
  s n := if h : n.val < 6 then i.s ⟨n, h⟩ else i.zStop

def motionInput (s : Drive) (i : DriveInput) : MotionInput where
  valid := s.check.valid
  fifo33Write := i.fifo33Write
  fifo31Write := i.fifo31Write
  dirJog := s.dirJog i
  pulsJog := s.pulsJog i

def clock (s : Drive) (i : DriveInput) : Drive where
  check := CncCard.check s.check (s.checkInput i)
  path := s.path.clock (s.motionInput i)
  jog := CncCard.jog s.jog ⟨i.pos, i.neg, i.s⟩
  jogSel := s.jogSel.clock (!i.hwValid)
  zeroSel := s.zeroSel.clock i.keyZero

def start (fifo33 : RegFifo Command 2048) (fifo31 : RegFifo (BitVec 64) 2048) : Drive :=
  ⟨.powerUp, MotionPath.start fifo33 fifo31, .powerUp, .powerUp, .powerUp⟩

def run (fifo33 : RegFifo Command 2048) (fifo31 : RegFifo (BitVec 64) 2048)
    (inp : Nat → DriveInput) : Nat → Drive := trace clock (start fifo33 fifo31) inp

/-- The pins `px` and so on. -/
def puls (s : Drive) (i : DriveInput) (ax : Axis) : Bool := s.path.puls (s.motionInput i) ax

/-- The pins `dx` and so on. -/
def dir (s : Drive) (i : DriveInput) (ax : Axis) : Bool := s.path.dir (s.motionInput i) ax

/-- The source that the pins of an axis come from. -/
def source (s : Drive) (ax : Axis) : Source :=
  if s.check.valid then .program
  else if ax ≠ .a ∧ s.zeroSel.flag = true then .zero
  else if s.jogSel.flag then .jog
  else .handWheel

def pulsOf (s : Drive) (i : DriveInput) (ax : Axis) : Source → Bool
  | .program => (s.path.dda.lane ax).interp.q
  | .zero => i.pulsZero ax
  | .jog => (s.jog.axis ax).puls
  | .handWheel => i.pulsHw ax

def dirOf (s : Drive) (i : DriveInput) (ax : Axis) : Source → Bool
  | .program => (s.path.dda.lane ax).dirReg
  | .zero => i.dirZero ax
  | .jog => (s.jog.axis ax).dir
  | .handWheel => i.dirHw ax

/-- Direction and pulse of an axis always come from one source. -/
theorem pins (s : Drive) (i : DriveInput) (ax : Axis) :
    s.puls i ax = s.pulsOf i ax (s.source ax) ∧ s.dir i ax = s.dirOf i ax (s.source ax) := by
  unfold puls dir MotionPath.puls MotionPath.dir SelAssign.select motionInput source
  cases s.check.valid with
  | true => exact ⟨rfl, rfl⟩
  | false =>
      unfold pulsJog dirJog zeroSelect jogSelect
      cases hzero : s.zeroSel.flag <;> cases hjog : s.jogSel.flag <;> cases ax <;> exact ⟨rfl, rfl⟩

section Run

variable (fifo33 : RegFifo Command 2048) (fifo31 : RegFifo (BitVec 64) 2048)
  (inp : Nat → DriveInput)

theorem run_check (t : Nat) : (run fifo33 fifo31 inp t).check =
    Check.run .powerUp (fun k => (run fifo33 fifo31 inp k).checkInput (inp k)) t := by
  have hstep (s : Drive) (i : DriveInput) :
      (s.clock i).check = CncCard.check s.check (s.checkInput i) := rfl
  exact trace_wired (p := Drive.check) hstep t

theorem run_jog (t : Nat) : (run fifo33 fifo31 inp t).jog =
    Jog.run (fun k => ⟨(inp k).pos, (inp k).neg, (inp k).s⟩) t := by
  have hstep (s : Drive) (i : DriveInput) :
      (s.clock i).jog = CncCard.jog s.jog ⟨i.pos, i.neg, i.s⟩ := rfl
  exact trace_part (p := Drive.jog) hstep t

theorem run_jogSel (t : Nat) : (run fifo33 fifo31 inp t).jogSel =
    Debouncer.run (fun k => !(inp k).hwValid) t := by
  have hstep (s : Drive) (i : DriveInput) :
      (s.clock i).jogSel = s.jogSel.clock (!i.hwValid) := rfl
  exact trace_part (p := Drive.jogSel) hstep t

theorem run_zeroSel (t : Nat) : (run fifo33 fifo31 inp t).zeroSel =
    Debouncer.run (fun k => (inp k).keyZero) t := by
  have hstep (s : Drive) (i : DriveInput) :
      (s.clock i).zeroSel = s.zeroSel.clock i.keyZero := rfl
  exact trace_part (p := Drive.zeroSel) hstep t

end Run

/-- What `valid` follows by a cycle: the start button has been held, and nothing that stops
the program. -/
structure Released (inp : Nat → DriveInput) (t : Nat) : Prop where
  start : Held (fun k => (inp k).start) 126 t
  stop : ¬ Held (fun k => (inp k).stop) 126 t
  limit : ∀ n, ¬ Held (fun k => (inp k).s n) 126 t
  zStop : ¬ Held (fun k => (inp k).zStop) 126 t

/-- The pins of an axis in a run: both come from the one source that the panel has selected
for 126 cycles, and the jog drive moves only in the direction of a key that has been held as
long, not into a switch that has. -/
structure Driven (r : Nat → Drive) (inp : Nat → DriveInput) : Prop where
  pins : ∀ ax t, (r t).puls (inp t) ax = (r t).pulsOf (inp t) ax ((r t).source ax) ∧
    (r t).dir (inp t) ax = (r t).dirOf (inp t) ax ((r t).source ax)
  program : ∀ ax t, (r (t + 1)).source ax = .program ↔ Released inp t
  zero : ∀ ax t, (r (t + 1)).source ax = .zero ↔
    ¬ Released inp t ∧ ax ≠ .a ∧ Held (fun k => (inp k).keyZero) 126 (t + 1)
  jog : ∀ ax t, (r (t + 1)).source ax = .jog ↔
    ¬ Released inp t ∧ ¬ (ax ≠ .a ∧ Held (fun k => (inp k).keyZero) 126 (t + 1)) ∧
      Held (fun k => !(inp k).hwValid) 126 (t + 1)
  jogged : ∀ ax t, (r (t + 1)).source ax = .jog → (r (t + 1)).puls (inp (t + 1)) ax = true →
    Held (fun k => (inp k).jogKey ax ((r (t + 1)).dir (inp (t + 1)) ax)) 126 t ∧
      ¬ Held (fun k => (inp k).s (jogStop ax ((r (t + 1)).dir (inp (t + 1)) ax))) 126 t

section Selection

variable (fifo33 : RegFifo Command 2048) (fifo31 : RegFifo (BitVec 64) 2048)
  (inp : Nat → DriveInput)

theorem run_stopped (t : Nat) : (run fifo33 fifo31 inp t).check.stopped = true ↔
    Held (fun k => (inp k).stop) 126 t ∨ (∃ n, Held (fun k => (inp k).s n) 126 t) ∨
      Held (fun k => (inp k).zStop) 126 t := by
  rw [Check.stopped_iff, run_check, Check.run_stop, Debouncer.run_flag]
  simp only [Check.run_f, Debouncer.run_flag, checkInput]
  refine or_congr Iff.rfl ?_
  constructor
  · rintro ⟨n, hheld⟩
    by_cases hn : n.val < 6
    · simp only [hn, dif_pos] at hheld
      exact .inl ⟨⟨n, hn⟩, hheld⟩
    · simp only [hn, dif_neg, not_false_eq_true] at hheld
      exact .inr hheld
  · rintro (⟨n, hheld⟩ | hheld)
    · exact ⟨n.castSucc, by simpa using hheld⟩
    · exact ⟨Fin.last 6, by simpa using hheld⟩

theorem run_valid (t : Nat) :
    (run fifo33 fifo31 inp (t + 1)).check.valid = true ↔ Released inp t := by
  have hstart : (run fifo33 fifo31 inp t).check.start.flag = true ↔
      Held (fun k => (inp k).start) 126 t := by
    rw [run_check, Check.run_start, Debouncer.run_flag]
    rfl
  have hnext : (run fifo33 fifo31 inp (t + 1)).check.valid =
      (!(run fifo33 fifo31 inp t).check.stopped && (run fifo33 fifo31 inp t).check.start.flag) :=
    Check.check_valid _ _
  rw [hnext, Bool.and_eq_true, Bool.not_eq_true', ← Bool.not_eq_true, run_stopped, hstart]
  simp only [not_or, not_exists]
  exact ⟨fun h => ⟨h.2, h.1.1, h.1.2.1, h.1.2.2⟩, fun h => ⟨⟨h.stop, h.limit, h.zStop⟩, h.start⟩⟩

theorem source_program (s : Drive) (ax : Axis) :
    s.source ax = .program ↔ s.check.valid = true := by
  unfold source
  cases s.check.valid with
  | true => simp
  | false => grind

theorem source_zero (s : Drive) (ax : Axis) : s.source ax = .zero ↔
    ¬ s.check.valid = true ∧ ax ≠ .a ∧ s.zeroSel.flag = true := by
  unfold source
  grind

theorem source_jog (s : Drive) (ax : Axis) : s.source ax = .jog ↔
    ¬ s.check.valid = true ∧ ¬ (ax ≠ .a ∧ s.zeroSel.flag = true) ∧ s.jogSel.flag = true := by
  unfold source
  grind

theorem jogged (ax : Axis) (t : Nat)
    (hpuls : ((run fifo33 fifo31 inp (t + 1)).jog.axis ax).puls = true) :
    Held (fun k => (inp k).jogKey ax ((run fifo33 fifo31 inp (t + 1)).jog.axis ax).dir) 126 t ∧
      ¬ Held (fun k => (inp k).s
        (jogStop ax ((run fifo33 fifo31 inp (t + 1)).jog.axis ax).dir)) 126 t := by
  rw [run_jog, Jog.run_axis_succ] at hpuls ⊢
  obtain ⟨hasks, hopen⟩ := JogAxis.asks_of_puls _ _ _ _ _ hpuls
  generalize (JogAxis.clock _ _ _ _ _).dir = dir at hasks hopen ⊢
  rw [Jog.stop_cases, Jog.stop, Jog.run_f, ← Bool.not_eq_true, Debouncer.run_flag] at hopen
  refine ⟨?_, hopen⟩
  cases dir with
  | false =>
      simp only [JogAxis.asks, Bool.false_eq_true, if_false] at hasks
      rwa [Jog.run_neg, Debouncer.run_flag] at hasks
  | true =>
      simp only [JogAxis.asks, if_true, Bool.and_eq_true] at hasks
      have hpos := hasks.2
      rwa [Jog.run_pos, Debouncer.run_flag] at hpos

/-- The selection and the causes, in every run from power-up. -/
theorem driven (fifo33 : RegFifo Command 2048) (fifo31 : RegFifo (BitVec 64) 2048)
    (inp : Nat → DriveInput) : Driven (run fifo33 fifo31 inp) inp where
  pins ax t := pins _ _ ax
  program ax t := by rw [source_program, run_valid]
  zero ax t := by rw [source_zero, run_valid, run_zeroSel, Debouncer.run_flag]
  jog ax t := by
    rw [source_jog, run_valid, run_zeroSel, run_jogSel, Debouncer.run_flag, Debouncer.run_flag]
  jogged ax t hsource hpuls := by
    obtain ⟨hp, hd⟩ := pins (run fifo33 fifo31 inp (t + 1)) (inp (t + 1)) ax
    rw [hsource] at hp hd
    rw [hp] at hpuls
    rw [hd]
    exact jogged fifo33 fifo31 inp ax t hpuls

end Selection

section Accounts

/-- The pulses that the pin of an axis makes in a range of cycles. -/
def pinPulses (r : Nat → Drive) (inp : Nat → DriveInput) (ax : Axis) (a b : Nat) : Nat :=
  edges (fun t => (r t).puls (inp t) ax) (fun _ => true) a b

/-- The pulses that a source makes there while it is and stays selected. -/
def ownPulses (r : Nat → Drive) (inp : Nat → DriveInput) (ax : Axis) (src : Source)
    (a b : Nat) : Nat :=
  edges (fun t => (r t).pulsOf (inp t) ax src) (steady (fun t => (r t).source ax) src) a b

/-- The cycles in which a manual source takes over. -/
def handovers (r : Nat → Drive) (ax : Axis) (a b : Nat) : Nat :=
  during (fun t => changed (fun t => (r t).source ax) t &&
    decide ((r t).source ax ≠ .program)) a b

/-- No pulse of a source gets lost or comes twice while it stays selected, and what the
changes of the selection add is at most one pulse for each manual source that takes over. -/
structure Accounted (r : Nat → Drive) (inp : Nat → DriveInput) (ax : Axis) : Prop where
  own_le : ∀ a b, ∑ src, ownPulses r inp ax src a b ≤ pinPulses r inp ax a b
  le_own : ∀ a b, pinPulses r inp ax a b ≤
    ∑ src, ownPulses r inp ax src a b + handovers r ax a b
  stays : ∀ src a b, (∀ t, a ≤ t → t < b → (r t).source ax = src) →
    pinPulses r inp ax (a + 1) b =
      edges (fun t => (r t).pulsOf (inp t) ax src) (fun _ => true) (a + 1) b

theorem puls_eq_mux (r : Nat → Drive) (inp : Nat → DriveInput) (ax : Axis) :
    (fun t => (r t).puls (inp t) ax) =
      mux (fun t => (r t).source ax) fun src t => (r t).pulsOf (inp t) ax src := by
  funext t
  exact (pins (r t) (inp t) ax).1

/-- The interpolator is low in the first cycle in which it is selected. -/
theorem program_low {s : Drive} (h : s.check.valid = false) (i : DriveInput) (ax : Axis) :
    ((s.clock i).path.dda.lane ax).interp.q = false := by
  have hvalid : (s.motionInput i).valid = false := h
  simp only [clock, MotionPath.clock, hvalid, dda_invalid, Dda.cleared_lane]
  rfl

variable (fifo33 : RegFifo Command 2048) (fifo31 : RegFifo (BitVec 64) 2048)
  (inp : Nat → DriveInput)

theorem loud_of_changed (ax : Axis) {t : Nat}
    (hch : changed (fun t => (run fifo33 fifo31 inp t).source ax) t = true)
    (hhigh : (run fifo33 fifo31 inp t).pulsOf (inp t) ax
      ((run fifo33 fifo31 inp t).source ax) = true) :
    (run fifo33 fifo31 inp t).source ax ≠ .program := by
  cases t with
  | zero => cases hch
  | succ t =>
      intro hprogram
      have hother : (run fifo33 fifo31 inp t).source ax ≠
          (run fifo33 fifo31 inp (t + 1)).source ax := of_decide_eq_true hch
      rw [hprogram, Ne, source_program, Bool.not_eq_true] at hother
      rw [hprogram, pulsOf] at hhigh
      have hlow := program_low hother (inp t) ax
      rw [run, trace_succ] at hhigh
      exact Bool.false_ne_true (hlow.symm.trans hhigh)

/-- The accounts of every axis in every run from power-up. -/
theorem accounted (fifo33 : RegFifo Command 2048) (fifo31 : RegFifo (BitVec 64) 2048)
    (inp : Nat → DriveInput) (ax : Axis) : Accounted (run fifo33 fifo31 inp) inp ax where
  own_le a b := by
    rw [pinPulses, puls_eq_mux, edges_mux]
    exact Nat.le_add_right _ _
  le_own a b := by
    rw [pinPulses, puls_eq_mux, edges_mux]
    refine Nat.add_le_add_left (edges_changed_le _ _ fun t hch hhigh => ?_) _
    exact Bool.and_eq_true_iff.mpr
      ⟨hch, decide_eq_true (loud_of_changed fifo33 fifo31 inp ax hch hhigh)⟩
  stays src a b h := by
    rw [pinPulses, puls_eq_mux]
    exact edges_mux_of_stays _ _ h

end Accounts

end Drive

end CncCard
