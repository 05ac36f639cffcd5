import CncCard.Clocked.Runs
import CncCard.Clocked.Square
import CncCard.Tool.MagCtrl

/-!
All that the tool changer drives, as the commands and switches of the past decide it. The
modules `tool_mag_ctrl` and `tool_set_ctrl` read one command word; each output is set by one
code and taken back by another code or by a switch, and while the magazine turns its step
signal is a square wave.
-/

namespace CncCard
open Clocked

/-- `enable_tlset` of `tool_set_ctrl`, which has the reset and the command word in common
with `tool_mag_ctrl`. -/
def toolSetCtrl (enableTlset : Bool) (i : ToolMagInput) : Bool :=
  if !i.rstTm then false
  else if i.op = 0b0010 then true
  else if i.op = 0b0011 then false
  else enableTlset

structure ToolChanger where
  mag : ToolMagCtrl
  enableTlset : Bool

namespace ToolChanger

def clock (s : ToolChanger) (i : ToolMagInput) : ToolChanger where
  mag := toolMagCtrl s.mag i
  enableTlset := toolSetCtrl s.enableTlset i

def run (s : ToolMagCtrl) (inp : Nat → ToolMagInput) : Nat → ToolChanger :=
  trace clock ⟨s.reset, false⟩ inp

/-- The code `on` has been given, and neither the code `off` nor the reset since. -/
def Switched (on off : BitVec 4) (inp : Nat → ToolMagInput) (t : Nat) : Prop :=
  ∃ a < t, ((inp a).rstTm = true ∧ (inp a).op = on) ∧
    ∀ k, a < k → k < t → (inp k).rstTm = true ∧ (inp k).op ≠ off

/-- For how many cycles the magazine has been turning. -/
def turning (r : Nat → ToolChanger) (inp : Nat → ToolMagInput) (t : Nat) : Nat :=
  streak (fun k => (r k).mag.rotState && (inp k).rstTm) t

/-- Half a period of the step signal. -/
def halfPeriod : Nat := 15626

/-- The outputs of the tool changer in a run. -/
structure Driven (r : Nat → ToolChanger) (inp : Nat → ToolMagInput) : Prop where
  setter : ∀ t, (r t).enableTlset = true ↔ Switched 0b0010 0b0011 inp t
  magazine : ∀ t, (r t).mag.enableTlmag = true ↔ Switched 0b0100 0b0101 inp t
  loose : ∀ t, (r t).mag.toolLoos = true ↔ Switched 0b1000 0b1001 inp t
  forward : ∀ t, (r t).mag.go = true ↔
    ToolMagCtrl.Underway 0b0110 ToolMagInput.aheFin inp t
  backward : ∀ t, (r t).mag.back = true ↔
    ToolMagCtrl.Underway 0b0111 ToolMagInput.backFin inp t
  steps : ∀ t, (r t).mag.rot = square halfPeriod (turning r inp t)
  dir : ∀ t, (r t).mag.rotDir = true ↔ halfPeriod ≤ turning r inp t
  axis8 : ∀ t, (r t).mag.rotState = true → (r t).mag.useAxis8 = true

section Step

variable (s : ToolMagCtrl) (i : ToolMagInput)

/-- What the commands do to an output with two codes. -/
def switch (on off : BitVec 4) (q : Bool) (i : ToolMagInput) : Bool :=
  (i.rstTm && decide (i.op = on)) || ((i.rstTm && decide (i.op ≠ off)) && q)

theorem switch_eq {on off : BitVec 4} (hne : on ≠ off) (q : Bool) : switch on off q i =
    if !i.rstTm then false else if i.op = off then false else if i.op = on then true else q := by
  rw [switch]
  cases i.rstTm with
  | false => rfl
  | true =>
      by_cases hoff : i.op = off
      · simp [hoff, hne.symm]
      · by_cases hon : i.op = on
        · simp [hon, hne]
        · simp [hon, hoff]

theorem toolSetCtrl_eq (q : Bool) : toolSetCtrl q i = switch 0b0010 0b0011 q i := by
  rw [switch_eq i (by decide), toolSetCtrl]
  cases i.rstTm with
  | false => rfl
  | true =>
      by_cases hoff : i.op = 0b0011
      · rw [hoff]
        rfl
      · simp only [hoff, if_false]

theorem step_enableTlmag :
    (toolMagCtrl s i).enableTlmag = switch 0b0100 0b0101 s.enableTlmag i := by
  rw [switch_eq i (by decide), toolMagCtrl]
  cases i.rstTm <;> rfl

theorem step_toolLoos :
    (toolMagCtrl s i).toolLoos = switch 0b1000 0b1001 s.toolLoos i := by
  rw [switch_eq i (by decide), toolMagCtrl]
  cases i.rstTm <;> rfl

theorem switched_iff {q : Nat → Bool} {on off : BitVec 4} {inp : Nat → ToolMagInput}
    (hstart : q 0 = false) (hstep : ∀ t, q (t + 1) = switch on off (q t) (inp t)) (t : Nat) :
    q t = true ↔ Switched on off inp t := by
  rw [since_iff hstart hstep]
  simp only [Switched, Bool.and_eq_true, decide_eq_true_iff]

/-- The step signal after `n` cycles of turning. The two counters are left alone by a reset, and
are clear when the next turning begins. -/
structure Wave (s : ToolMagCtrl) (n : Nat) : Prop where
  rot : s.rot = square halfPeriod n
  dir : s.rotDir = decide (halfPeriod ≤ n)
  delay : s.rotState = true → s.timeDelay.toNat = n % halfPeriod

variable {s}

theorem wave_reset (s : ToolMagCtrl) : Wave s.reset 0 :=
  ⟨(square_zero halfPeriod).symm, rfl, fun hturns => nomatch hturns⟩

/-- The direction goes up with the first end of the counter. -/
theorem wave_dir {c : BitVec 16} {n : Nat} (hc : c.toNat = n % halfPeriod) :
    (c == 0x3d09 || decide (halfPeriod ≤ n)) = decide (halfPeriod ≤ n + 1) := by
  have hend : c = 0x3d09 ↔ n % halfPeriod = 15625 := by
    rw [← BitVec.toNat_inj, hc]
    rfl
  rw [Bool.eq_iff_iff, Bool.or_eq_true, beq_iff_eq, hend, decide_eq_true_iff, decide_eq_true_iff]
  simp only [halfPeriod]
  omega

/-- The step signal in a cycle without reset. -/
theorem step_turn (hrst : i.rstTm = true) :
    (toolMagCtrl s i).rot = (s.rotState && (s.rot ^^ s.timeDelay == 0x3d09)) ∧
    (toolMagCtrl s i).rotDir = (s.rotState && (s.timeDelay == 0x3d09 || s.rotDir)) ∧
    (toolMagCtrl s i).timeDelay = if !s.rotState then 0
      else if s.timeDelay = 0x3d09 then 0 else s.timeDelay + 1 := by
  have hrot : (toolMagCtrl s i).rot =
      (s.rotState && (if s.timeDelay = 0x3d09 then !s.rot else s.rot)) := by
    rw [toolMagCtrl, hrst]
    rfl
  refine ⟨?_, ?_⟩
  · rw [hrot]
    by_cases hend : s.timeDelay = 0x3d09
    · rw [if_pos hend, hend, beq_self_eq_true, Bool.xor_true]
    · rw [if_neg hend, beq_false_of_ne hend, Bool.xor_false]
  · rw [toolMagCtrl, hrst]
    exact ⟨rfl, rfl⟩

theorem Wave.clock {n : Nat} (h : Wave s n) :
    Wave (toolMagCtrl s i) (if s.rotState && i.rstTm then n + 1 else 0) := by
  cases hrst : i.rstTm with
  | false =>
      rw [Bool.and_false, if_neg Bool.false_ne_true, ToolMagCtrl.step_reset s i hrst]
      exact wave_reset s
  | true =>
      obtain ⟨hrot, hdir, hdelay⟩ := step_turn (s := s) i hrst
      rw [Bool.and_true]
      cases hturns : s.rotState with
      | false =>
          rw [hturns] at hrot hdir hdelay
          rw [if_neg Bool.false_ne_true]
          exact ⟨hrot.trans (square_zero halfPeriod).symm, hdir,
            fun _ => congrArg BitVec.toNat hdelay⟩
      | true =>
          have hn := h.delay hturns
          rw [hturns, Bool.true_and] at hrot hdir
          rw [hturns, Bool.not_true, if_neg Bool.false_ne_true] at hdelay
          obtain ⟨hround, hwave⟩ :=
            divider_step (show (0x3d09 : BitVec 16).toNat + 1 = halfPeriod from rfl) hn
          rw [if_pos rfl]
          refine ⟨?_, ?_, fun _ => ?_⟩
          · rw [hrot, h.rot, hwave]
          · rw [hdir, h.dir, wave_dir hn]
          · rw [hdelay, hround]

end Step

section Run

variable (s : ToolMagCtrl) (inp : Nat → ToolMagInput)

theorem run_succ (t : Nat) : run s inp (t + 1) = (run s inp t).clock (inp t) := rfl

theorem run_mag (t : Nat) : (run s inp t).mag = ToolMagCtrl.run s.reset inp t := by
  have hstep (s : ToolChanger) (i : ToolMagInput) : (s.clock i).mag = toolMagCtrl s.mag i := rfl
  exact trace_part (p := mag) hstep t

theorem run_wave (t : Nat) : Wave (run s inp t).mag (turning (run s inp) inp t) := by
  induction t with
  | zero => exact wave_reset s
  | succ t ih => exact ih.clock (inp t)

/-- The step axis belongs to the magazine whenever it turns. -/
theorem run_axis8 (t : Nat) :
    (run s inp t).mag.rotState = true → (run s inp t).mag.useAxis8 = true := by
  induction t with
  | zero => exact fun hturns => absurd hturns Bool.false_ne_true
  | succ t ih =>
      change (toolMagCtrl (run s inp t).mag (inp t)).rotState = true →
        (toolMagCtrl (run s inp t).mag (inp t)).useAxis8 = true
      rw [toolMagCtrl]
      cases (inp t).rstTm with
      | false => exact fun hturns => absurd hturns Bool.false_ne_true
      | true =>
          simp only [Bool.not_true, Bool.false_eq_true, if_false]
          split
          · exact id
          · split
            · exact id
            · exact ih

end Run

/-- In every run from a reset. -/
theorem driven_of_reset (s : ToolMagCtrl) (inp : Nat → ToolMagInput) :
    Driven (run s inp) inp where
  setter := switched_iff rfl fun t => toolSetCtrl_eq (inp t) _
  magazine := switched_iff rfl fun t => step_enableTlmag _ (inp t)
  loose := switched_iff rfl fun t => step_toolLoos _ (inp t)
  forward t := by rw [run_mag, ToolMagCtrl.run_go]
  backward t := by rw [run_mag, ToolMagCtrl.run_back]
  steps t := (run_wave s inp t).rot
  dir t := by rw [(run_wave s inp t).dir, decide_eq_true_iff]
  axis8 := run_axis8 s inp

end ToolChanger

end CncCard
