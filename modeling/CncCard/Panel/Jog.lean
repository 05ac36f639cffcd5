import CncCard.Clocked.Edges
import CncCard.Motion.Path
import CncCard.Panel.Debouncer
import CncCard.Ports

/-!
The jog drive `jog`: eight debounced keys and six debounced limit switches, and for each
axis a pulse generator that a limit switch stops. The ports are documented as the limits
of X, Y and Z in pairs, `s1` the positive limit of X and so on, but the generators look
at other switches for all directions except the negative one of Y.
-/

namespace CncCard
open Clocked

structure JogInput where
  pos : Axis → Bool
  neg : Axis → Bool
  /-- `s1` to `s6`. -/
  s : Fin 6 → Bool

/-- The registers of one axis: `flag_x_pos`, `cnt_puls_x_pos` and so on. -/
structure JogAxis where
  pos : Debouncer
  neg : Debouncer
  cntPulsPos : BitVec 16
  cntPulsNeg : BitVec 16
  dir : Bool
  puls : Bool

structure Jog where
  axis : Axis → JogAxis
  /-- `f1` to `f6` with their counters. -/
  f : Fin 6 → Debouncer

/-- Where the period counters of the generators end. -/
def jogPeriod : BitVec 16 := 0x3d09

namespace JogAxis

def powerUp : JogAxis := ⟨.powerUp, .powerUp, 0, 0, false, false⟩

/-- The pulse generator. The negative key goes before the positive one; `stopNeg` and
`stopPos` are the limit flags that the axis looks at. -/
def pulse (s : JogAxis) (stopNeg stopPos : Bool) : JogAxis :=
  if s.neg.flag then
    if stopNeg then { s with dir := false, puls := false }
    else if s.cntPulsNeg = jogPeriod then
      { s with dir := false, puls := !s.puls, cntPulsNeg := 0 }
    else { s with dir := false, cntPulsNeg := s.cntPulsNeg + 1 }
  else if s.pos.flag then
    if stopPos then { s with dir := false, puls := false }
    else if s.cntPulsPos = jogPeriod then
      { s with dir := true, puls := !s.puls, cntPulsPos := 0 }
    else { s with dir := true, cntPulsPos := s.cntPulsPos + 1 }
  else { s with dir := false, puls := false, cntPulsNeg := 0, cntPulsPos := 0 }

def clock (s : JogAxis) (pos neg stopNeg stopPos : Bool) : JogAxis :=
  { s.pulse stopNeg stopPos with pos := s.pos.clock pos, neg := s.neg.clock neg }

end JogAxis

/-- The flag that the generator of an axis looks at; the direction is `dir`, 1 for
positive. -/
def jogStop : Axis → Bool → Fin 6
  | .x, false => 2
  | .x, true => 1
  | .y, false => 3
  | .y, true => 0
  | .z, false => 4
  | .z, true => 5
  | .a, false => 4
  | .a, true => 5

/-- The limit switches as the ports are documented. A has none. -/
def jogLimit : Axis → Bool → Option (Fin 6)
  | .x, true => some 0
  | .x, false => some 1
  | .y, true => some 2
  | .y, false => some 3
  | .z, true => some 4
  | .z, false => some 5
  | .a, _ => none

def jog (s : Jog) (i : JogInput) : Jog where
  axis ax := (s.axis ax).clock (i.pos ax) (i.neg ax) (s.f (jogStop ax false)).flag
    (s.f (jogStop ax true)).flag
  f n := (s.f n).clock (i.s n)

namespace Jog

def powerUp : Jog := ⟨fun _ => .powerUp, fun _ => .powerUp⟩

def run (inp : Nat → JogInput) : Nat → Jog := trace jog powerUp inp

end Jog

namespace JogAxis

/-- A debounced key asks for motion in this direction. -/
def asks (s : JogAxis) (dir : Bool) : Bool :=
  if dir then !s.neg.flag && s.pos.flag else s.neg.flag

def cntPuls (s : JogAxis) (dir : Bool) : BitVec 16 :=
  if dir then s.cntPulsPos else s.cntPulsNeg

/-- The period of the generator ends with a rising edge. -/
def due (s : JogAxis) (dir : Bool) : Bool := !s.puls && s.cntPuls dir == jogPeriod

variable (s : JogAxis) (pos neg stopNeg stopPos : Bool)

/-- A stopped generator stands still. -/
theorem clock_stopped {dir : Bool} (hasks : s.asks dir = true)
    (hstop : (if dir then stopPos else stopNeg) = true) :
    (s.clock pos neg stopNeg stopPos).puls = false ∧
      (s.clock pos neg stopNeg stopPos).cntPuls dir = s.cntPuls dir := by
  cases dir with
  | false =>
      have hneg : s.neg.flag = true := hasks
      have hon : stopNeg = true := hstop
      simp [clock, pulse, cntPuls, hneg, hon]
  | true =>
      obtain ⟨hneg, hpos⟩ := Bool.and_eq_true_iff.mp hasks
      have hon : stopPos = true := hstop
      simp [clock, pulse, cntPuls, (Bool.not_eq_true' _).mp hneg, hpos, hon]

/-- A generator that is not stopped counts its period and toggles the output at the end. -/
theorem clock_running {dir : Bool} (hasks : s.asks dir = true)
    (hstop : (if dir then stopPos else stopNeg) = false) :
    (s.clock pos neg stopNeg stopPos).dir = dir ∧
      (s.clock pos neg stopNeg stopPos).cntPuls dir =
        (if s.cntPuls dir = jogPeriod then 0 else s.cntPuls dir + 1) ∧
      (s.clock pos neg stopNeg stopPos).puls = (s.puls ^^ s.cntPuls dir == jogPeriod) := by
  cases dir with
  | false =>
      have hneg : s.neg.flag = true := hasks
      have hoff : stopNeg = false := hstop
      by_cases hend : s.cntPulsNeg = jogPeriod
      · simp [clock, pulse, cntPuls, hneg, hoff, hend]
      · have hpart : (s.cntPulsNeg == jogPeriod) = false := beq_false_of_ne hend
        simp [clock, pulse, cntPuls, hneg, hoff, hend, hpart]
  | true =>
      obtain ⟨hneg, hpos⟩ := Bool.and_eq_true_iff.mp hasks
      have hoff : stopPos = false := hstop
      by_cases hend : s.cntPulsPos = jogPeriod
      · simp [clock, pulse, cntPuls, (Bool.not_eq_true' _).mp hneg, hpos, hoff, hend]
      · have hpart : (s.cntPulsPos == jogPeriod) = false := beq_false_of_ne hend
        simp [clock, pulse, cntPuls, (Bool.not_eq_true' _).mp hneg, hpos, hoff, hend, hpart]

theorem clock_idle (hasks : ∀ dir, s.asks dir = false) :
    (s.clock pos neg stopNeg stopPos).puls = false ∧
      ∀ dir, (s.clock pos neg stopNeg stopPos).cntPuls dir = 0 := by
  have hneg : s.neg.flag = false := hasks false
  have hpos : s.pos.flag = false := by simpa [asks, hneg] using hasks true
  simp [clock, pulse, cntPuls, hneg, hpos]

theorem clock_cntPuls_ne {dir : Bool} (hasks : s.asks dir = true)
    (hstop : (if dir then stopPos else stopNeg) = false) :
    (s.clock pos neg stopNeg stopPos).cntPuls dir ≠ s.cntPuls dir := by
  rw [(clock_running s pos neg stopNeg stopPos hasks hstop).2.1]
  split
  · next hend => simp [hend, jogPeriod]
  · simp

/-- A rising edge comes from a generator that is due and not stopped. -/
theorem due_of_rise (hlow : s.puls = false)
    (hrise : (s.clock pos neg stopNeg stopPos).puls = true) :
    s.asks (s.clock pos neg stopNeg stopPos).dir = true ∧
      (if (s.clock pos neg stopNeg stopPos).dir then stopPos else stopNeg) = false ∧
      s.due (s.clock pos neg stopNeg stopPos).dir = true := by
  have hasks : ∃ dir, s.asks dir = true := by
    by_contra hnone
    simp only [not_exists, Bool.not_eq_true] at hnone
    rw [(clock_idle s pos neg stopNeg stopPos hnone).1] at hrise
    cases hrise
  obtain ⟨dir, hdir⟩ := hasks
  cases hstop : (if dir then stopPos else stopNeg) with
  | true =>
      rw [(clock_stopped s pos neg stopNeg stopPos hdir hstop).1] at hrise
      cases hrise
  | false =>
      obtain ⟨hout, -, hpuls⟩ := clock_running s pos neg stopNeg stopPos hdir hstop
      rw [hpuls, hlow, Bool.false_xor] at hrise
      rw [hout]
      exact ⟨hdir, hstop, by rw [due, hlow, hrise]; rfl⟩

/-- An output that is high has been left so by a generator that is asked for. -/
theorem asks_of_puls (hhigh : (s.clock pos neg stopNeg stopPos).puls = true) :
    s.asks (s.clock pos neg stopNeg stopPos).dir = true ∧
      (if (s.clock pos neg stopNeg stopPos).dir then stopPos else stopNeg) = false := by
  have hasks : ∃ dir, s.asks dir = true := by
    by_contra hnone
    simp only [not_exists, Bool.not_eq_true] at hnone
    rw [(clock_idle s pos neg stopNeg stopPos hnone).1] at hhigh
    cases hhigh
  obtain ⟨dir, hdir⟩ := hasks
  cases hstop : (if dir then stopPos else stopNeg) with
  | true =>
      rw [(clock_stopped s pos neg stopNeg stopPos hdir hstop).1] at hhigh
      cases hhigh
  | false =>
      rw [(clock_running s pos neg stopNeg stopPos hdir hstop).1]
      exact ⟨hdir, hstop⟩

end JogAxis

namespace Jog

/-- The flag that the generator looks at for this direction. -/
def stop (s : Jog) (ax : Axis) (dir : Bool) : Bool := (s.f (jogStop ax dir)).flag

variable (inp : Nat → JogInput)

theorem run_axis_succ (t : Nat) (ax : Axis) :
    (run inp (t + 1)).axis ax =
      ((run inp t).axis ax).clock ((inp t).pos ax) ((inp t).neg ax)
        ((run inp t).stop ax false) ((run inp t).stop ax true) := rfl

theorem run_f (n : Fin 6) (t : Nat) :
    (run inp t).f n = Debouncer.run (fun k => (inp k).s n) t := by
  have hstep (s : Jog) (i : JogInput) : (jog s i).f n = (s.f n).clock (i.s n) := rfl
  exact trace_part (p := fun s : Jog => s.f n) hstep t

theorem run_pos (ax : Axis) (t : Nat) :
    ((run inp t).axis ax).pos = Debouncer.run (fun k => (inp k).pos ax) t := by
  have hstep (s : Jog) (i : JogInput) :
      ((jog s i).axis ax).pos = (s.axis ax).pos.clock (i.pos ax) := rfl
  exact trace_part (p := fun s : Jog => (s.axis ax).pos) hstep t

theorem run_neg (ax : Axis) (t : Nat) :
    ((run inp t).axis ax).neg = Debouncer.run (fun k => (inp k).neg ax) t := by
  have hstep (s : Jog) (i : JogInput) :
      ((jog s i).axis ax).neg = (s.axis ax).neg.clock (i.neg ax) := rfl
  exact trace_part (p := fun s : Jog => (s.axis ax).neg) hstep t

/-- The documented limit of a motion has been closed for `n` cycles before `t`. -/
def AtLimit (ax : Axis) (dir : Bool) (n t : Nat) : Prop :=
  ∃ k, jogLimit ax dir = some k ∧ Held (fun u => (inp u).s k) n t

/-- No pulse in the direction of a limit that has been closed for 127 cycles, and no
motion asked for stands still but for its own debounced limit. -/
structure Respects : Prop where
  stops : ∀ ax dir t, AtLimit inp ax dir 127 t →
    rose (fun k => ((run inp k).axis ax).puls) t = true → ((run inp t).axis ax).dir ≠ dir
  free : ∀ ax dir t, ((run inp t).axis ax).asks dir = true →
    ((run inp (t + 1)).axis ax).cntPuls dir = ((run inp t).axis ax).cntPuls dir →
    AtLimit inp ax dir 126 t

theorem stop_cases (s : Jog) (ax : Axis) (dir : Bool) :
    (if dir then s.stop ax true else s.stop ax false) = s.stop ax dir := by
  cases dir <;> rfl

/-- The limits are respected in a run if and only if, in every cycle with a motion asked
for, the flag that the generator looks at is up only at the limit of that motion, and no
edge is due at the limit while that flag is down. -/
theorem respects_iff_stop : Respects inp ↔
    ∀ ax dir t, ((run inp t).axis ax).asks dir = true →
      ((run inp t).stop ax dir = true → AtLimit inp ax dir 126 t) ∧
      (AtLimit inp ax dir 127 (t + 1) → ((run inp t).axis ax).due dir = true →
        (run inp t).stop ax dir = true) := by
  constructor
  · intro h ax dir t hasks
    refine ⟨fun hstop => h.free ax dir t hasks ?_, fun hlimit hdue => ?_⟩
    · rw [run_axis_succ]
      exact (JogAxis.clock_stopped _ _ _ _ _ hasks (by rw [stop_cases, hstop])).2
    · by_contra hopen
      rw [Bool.not_eq_true] at hopen
      obtain ⟨hdir, -, hpuls⟩ := JogAxis.clock_running ((run inp t).axis ax) ((inp t).pos ax)
        ((inp t).neg ax) ((run inp t).stop ax false) ((run inp t).stop ax true) hasks
        (by rw [stop_cases, hopen])
      rw [← run_axis_succ] at hdir hpuls
      obtain ⟨hlow, hend⟩ := Bool.and_eq_true_iff.mp hdue
      rw [Bool.not_eq_true'] at hlow
      refine h.stops ax dir (t + 1) hlimit ?_ hdir
      simp only [rose, hpuls, hlow, hend]
      rfl
  · intro h
    refine ⟨fun ax dir t hlimit hrose hdir => ?_, fun ax dir t hasks hstill => ?_⟩
    · cases t with
      | zero => cases hrose
      | succ t =>
          obtain ⟨hlow, hrise⟩ := Bool.and_eq_true_iff.mp hrose
          rw [Bool.not_eq_true'] at hlow
          simp only [run_axis_succ] at hrise
          obtain ⟨hasks, hopen, hdue⟩ := JogAxis.due_of_rise _ _ _ _ _ hlow hrise
          rw [← run_axis_succ, hdir] at hasks hopen hdue
          rw [stop_cases, ((h ax dir t hasks).2 hlimit hdue)] at hopen
          cases hopen
    · apply (h ax dir t hasks).1
      by_contra hopen
      rw [Bool.not_eq_true] at hopen
      rw [run_axis_succ] at hstill
      exact JogAxis.clock_cntPuls_ne _ _ _ _ _ hasks (by rw [stop_cases, hopen]) hstill

/-- The motion that the keys have asked for over 126 cycles before `t`. -/
def Asked (ax : Axis) (dir : Bool) (t : Nat) : Prop :=
  if dir then ¬ Held (fun u => (inp u).neg ax) 126 t ∧ Held (fun u => (inp u).pos ax) 126 t
  else Held (fun u => (inp u).neg ax) 126 t

/-- The switch that the generator of a motion looks at has been closed for 126 cycles. -/
def Wired (ax : Axis) (dir : Bool) (t : Nat) : Prop :=
  Held (fun u => (inp u).s (jogStop ax dir)) 126 t

theorem run_asks (ax : Axis) (dir : Bool) (t : Nat) :
    ((run inp t).axis ax).asks dir = true ↔ Asked inp ax dir t := by
  cases dir with
  | false =>
      rw [JogAxis.asks, Asked, if_neg Bool.false_ne_true, if_neg Bool.false_ne_true, run_neg,
        Debouncer.run_flag]
  | true =>
      rw [JogAxis.asks, Asked, if_pos rfl, if_pos rfl, Bool.and_eq_true, Bool.not_eq_true',
        ← Bool.not_eq_true, run_neg, run_pos, Debouncer.run_flag, Debouncer.run_flag]

theorem run_stop (ax : Axis) (dir : Bool) (t : Nat) :
    (run inp t).stop ax dir = true ↔ Wired inp ax dir t := by
  rw [stop, run_f, Debouncer.run_flag, Wired]

/-- The one motion whose generator looks at its own limit. -/
theorem jogLimit_eq_jogStop (ax : Axis) (dir : Bool) :
    jogLimit ax dir = some (jogStop ax dir) ↔ ax = .y ∧ dir = false := by
  cases ax <;> cases dir <;> decide

theorem wired_iff_atLimit {ax : Axis} {dir : Bool}
    (h : jogLimit ax dir = some (jogStop ax dir)) (t : Nat) :
    Wired inp ax dir t ↔ AtLimit inp ax dir 126 t := by
  constructor
  · exact fun hwired => ⟨_, h, hwired⟩
  · rintro ⟨k, hk, hheld⟩
    obtain rfl := Option.some.inj (h.symm.trans hk)
    exact hheld

theorem AtLimit.before {ax : Axis} {dir : Bool} {n t : Nat}
    (h : AtLimit inp ax dir (n + 1) (t + 1)) : AtLimit inp ax dir n t := by
  obtain ⟨k, hk, hheld⟩ := h
  exact ⟨k, hk, ((held_succ n t).mp hheld).2⟩

/-- On the inputs: in every cycle in which the keys have asked for a motion, other than the
negative one of Y, the switch that its generator looks at has been closed only at the limit of
that motion, and no edge is due at the limit while that switch has not. -/
theorem respects_iff (inp : Nat → JogInput) :
    Respects inp ↔ ∀ ax dir t, ¬ (ax = .y ∧ dir = false) → Asked inp ax dir t →
      (Wired inp ax dir t → AtLimit inp ax dir 126 t) ∧
      (AtLimit inp ax dir 127 (t + 1) → ((run inp t).axis ax).due dir = true →
        Wired inp ax dir t) := by
  rw [respects_iff_stop]
  simp only [run_asks, run_stop]
  constructor
  · exact fun h ax dir t _ => h ax dir t
  · intro h ax dir t hasks
    by_cases hown : ax = .y ∧ dir = false
    · have hwired := wired_iff_atLimit inp ((jogLimit_eq_jogStop ax dir).mpr hown) t
      exact ⟨hwired.mp, fun hlimit _ => hwired.mpr (AtLimit.before inp hlimit)⟩
    · exact h ax dir t hown hasks

/-- A generator that runs counts its period, with the output as it was. -/
theorem running_count {ax : Axis} {dir : Bool} {a n : Nat}
    (hstart : ((run inp a).axis ax).cntPuls dir = 0) (hn : n ≤ 0x3d09)
    (hrun : ∀ k < n, ((run inp (a + k)).axis ax).asks dir = true ∧
      (run inp (a + k)).stop ax dir = false) :
    ((run inp (a + n)).axis ax).cntPuls dir = BitVec.ofNat 16 n ∧
      ((run inp (a + n)).axis ax).puls = ((run inp a).axis ax).puls := by
  induction n with
  | zero => exact ⟨hstart, rfl⟩
  | succ n ih =>
      obtain ⟨hcnt, hpuls⟩ := ih (Nat.le_of_succ_le hn) fun k hk => hrun k (Nat.lt_succ_of_lt hk)
      obtain ⟨hasks, hopen⟩ := hrun n (Nat.lt_succ_self n)
      obtain ⟨-, hnext, hout⟩ := JogAxis.clock_running ((run inp (a + n)).axis ax)
        ((inp (a + n)).pos ax) ((inp (a + n)).neg ax) ((run inp (a + n)).stop ax false)
        ((run inp (a + n)).stop ax true) hasks (by rw [stop_cases, hopen])
      have hpart : BitVec.ofNat 16 n ≠ jogPeriod := by
        intro heq
        have hnat := congrArg BitVec.toNat heq
        simp only [jogPeriod, BitVec.toNat_ofNat, BitVec.reduceToNat] at hnat
        omega
      rw [← Nat.add_assoc, run_axis_succ, hnext, hout, hcnt, if_neg hpart,
        beq_false_of_ne hpart, Bool.xor_false, BitVec.ofNat_add]
      exact ⟨rfl, hpuls⟩

section IntoLimit

/-- The positive key and the positive limit of X closed, and nothing else. -/
def intoLimit (_ : Nat) : JogInput :=
  ⟨fun ax => ax == .x, fun _ => false, fun n => n == 0⟩

theorem intoLimit_asks (t : Nat) (dir : Bool) :
    ((run intoLimit t).axis .x).asks dir = (dir && decide (126 ≤ t)) := by
  have hneg : ((run intoLimit t).axis .x).neg.flag = false := by
    rw [run_neg, ← Bool.not_eq_true, Debouncer.run_flag]
    intro hheld
    exact Bool.false_ne_true
      (hheld.2 (t - 1) (by have := hheld.1; omega) (by have := hheld.1; omega))
  have hpos : ((run intoLimit t).axis .x).pos.flag = decide (126 ≤ t) := by
    rw [run_pos, Bool.eq_iff_iff, Debouncer.run_flag, decide_eq_true_iff]
    exact ⟨fun hheld => hheld.1, fun hle => ⟨hle, fun _ _ _ => rfl⟩⟩
  cases dir with
  | false => exact hneg
  | true => simp only [JogAxis.asks, if_true, hneg, hpos, Bool.not_false]

theorem intoLimit_stop (t : Nat) : (run intoLimit t).stop .x true = false := by
  rw [stop, run_f, ← Bool.not_eq_true, Debouncer.run_flag]
  intro hheld
  exact Bool.false_ne_true
    (hheld.2 (t - 1) (by have := hheld.1; omega) (by have := hheld.1; omega))

theorem intoLimit_idle {t : Nat} (ht : t ≤ 126) :
    ((run intoLimit t).axis .x).puls = false ∧ ((run intoLimit t).axis .x).cntPuls true = 0 := by
  cases t with
  | zero => exact ⟨rfl, rfl⟩
  | succ t =>
      have hasks (dir : Bool) : ((run intoLimit t).axis .x).asks dir = false := by
        rw [intoLimit_asks, decide_eq_false (by omega), Bool.and_false]
      obtain ⟨hpuls, hcnt⟩ := JogAxis.clock_idle _ ((intoLimit t).pos .x) ((intoLimit t).neg .x)
        ((run intoLimit t).stop .x false) ((run intoLimit t).stop .x true) hasks
      exact ⟨hpuls, hcnt true⟩

/-- X goes on into its limit. -/
theorem respects_intoLimit_false : ¬ Respects intoLimit := by
  intro h
  have hrun (k : Nat) : ((run intoLimit (126 + k)).axis .x).asks true = true ∧
      (run intoLimit (126 + k)).stop .x true = false := by
    refine ⟨?_, intoLimit_stop _⟩
    rw [intoLimit_asks, decide_eq_true (Nat.le_add_right _ _), Bool.and_true]
  obtain ⟨hlow, hzero⟩ := intoLimit_idle (Nat.le_refl 126)
  obtain ⟨hcnt, hpuls⟩ := running_count intoLimit hzero (Nat.le_refl 0x3d09) fun k _ => hrun k
  obtain ⟨hasks, hopen⟩ := hrun 0x3d09
  obtain ⟨hdir, -, hout⟩ := JogAxis.clock_running ((run intoLimit (126 + 0x3d09)).axis .x)
    ((intoLimit (126 + 0x3d09)).pos .x) ((intoLimit (126 + 0x3d09)).neg .x)
    ((run intoLimit (126 + 0x3d09)).stop .x false) ((run intoLimit (126 + 0x3d09)).stop .x true)
    hasks (by rw [stop_cases, hopen])
  rw [← run_axis_succ, hpuls, hlow, hcnt] at hout
  rw [← run_axis_succ] at hdir
  refine h.stops .x true (126 + 0x3d09 + 1) ⟨0, rfl, by decide, fun _ _ _ => rfl⟩ ?_ hdir
  rw [rose, hpuls, hlow, hout]
  rfl

end IntoLimit

end Jog

end CncCard
