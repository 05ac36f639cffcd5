import CncCard.Clocked.Mux
import CncCard.Motion.Path
import CncCard.Panel.Debouncer

/-!
The axis selection `axis_sel` of the hand wheel: a debouncer for the contact of each axis,
and the pulse and the direction of the wheel to the first axis in the order X, Y, Z, A whose
contact has been closed. A run is a run behind the reset.
-/

namespace CncCard
open Clocked

instance : Fintype Axis where
  elems := {.x, .y, .z, .a}
  complete ax := by cases ax <;> decide

structure AxisSel where
  /-- `flag1` to `flag4` with their counters. -/
  flag : Axis → Debouncer
  dir : Axis → Bool
  puls : Axis → Bool

structure AxisSelInput where
  /-- `i_X` and so on, closed when low. -/
  contact : Axis → Bool
  p : Bool
  dirIn : Bool

namespace AxisSel

def reset : AxisSel := ⟨fun _ => .powerUp, fun _ => false, fun _ => false⟩

def selected (s : AxisSel) : Option Axis :=
  if (s.flag .x).flag then some .x
  else if (s.flag .y).flag then some .y
  else if (s.flag .z).flag then some .z
  else if (s.flag .a).flag then some .a
  else none

def clock (s : AxisSel) (i : AxisSelInput) : AxisSel where
  flag ax := (s.flag ax).clock (!i.contact ax)
  dir ax := decide (s.selected = some ax) && i.dirIn
  puls ax := decide (s.selected = some ax) && i.p

def run (inp : Nat → AxisSelInput) : Nat → AxisSel := trace clock reset inp

/-- The axes whose contact goes before that of `ax`. -/
def before : Axis → List Axis
  | .x => []
  | .y => [.x]
  | .z => [.x, .y]
  | .a => [.x, .y, .z]

theorem selected_iff (s : AxisSel) (ax : Axis) : s.selected = some ax ↔
    (s.flag ax).flag = true ∧ ∀ ax' ∈ before ax, ¬ (s.flag ax').flag = true := by
  unfold selected
  cases hx : (s.flag .x).flag <;> cases hy : (s.flag .y).flag <;> cases hz : (s.flag .z).flag <;>
    cases ha : (s.flag .a).flag <;> cases ax <;> simp [before, hx, hy, hz, ha]

section Run

variable (inp : Nat → AxisSelInput)

theorem run_flag (ax : Axis) (t : Nat) :
    (run inp t).flag ax = Debouncer.run (fun k => !(inp k).contact ax) t := by
  have hstep (s : AxisSel) (i : AxisSelInput) :
      (s.clock i).flag ax = (s.flag ax).clock (!i.contact ax) := rfl
  exact trace_part (p := fun s : AxisSel => s.flag ax) hstep t

/-- The axis whose contact has been closed for 126 cycles, with none before it. -/
theorem run_selected (ax : Axis) (t : Nat) : (run inp t).selected = some ax ↔
    Held (fun k => !(inp k).contact ax) 126 t ∧
      ∀ ax' ∈ before ax, ¬ Held (fun k => !(inp k).contact ax') 126 t := by
  simp only [selected_iff, run_flag, Debouncer.run_flag]

/-- The outputs are those of the selection, one cycle behind. -/
theorem run_puls (ax : Axis) (t : Nat) : (run inp (t + 1)).puls ax =
    demux (fun k => (run inp k).selected) (fun k => (inp k).p) ax t := rfl

/-- All axes together get no more pulses than come in, but for the changes of the axis. -/
theorem pulses_le (n : Nat) :
    ∑ ax, edges (fun k => (run inp k).puls ax) (fun _ => true) 0 (n + 1) ≤
      edges (fun k => (inp k).p) (fun _ => true) 0 n +
        during (changed fun k => (run inp k).selected) 0 n := by
  have hbehind (ax : Axis) := edges_behind (y := fun k => (run inp k).puls ax)
    (x := demux (fun k => (run inp k).selected) (fun k => (inp k).p) ax) rfl rfl
    (run_puls inp ax) n
  simp only [hbehind]
  exact edges_demux_le _ _ 0 n

end Run

end AxisSel

end CncCard
