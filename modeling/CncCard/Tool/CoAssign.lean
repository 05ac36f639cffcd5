import CncCard.Motion.Path
import CncCard.Ports
import CncCard.Tool.MagCtrl

/-!
`co_assign` hands the channels X, Y, Z and A to the enabled ones of eight axes, or, while
the tool magazine turns, the magazine's pulses to axis 8 and nothing to the others. It
follows `use_axis8`, which the reset of `tool_mag_ctrl` leaves as it is.
-/

namespace CncCard
open Clocked

structure CoAssignInput where
  /-- `co1` to `co8`. -/
  co : Fin 8 → Bool
  p : Axis → Bool
  d : Axis → Bool
  magSel : Bool
  md : Bool
  mp : Bool

structure CoAssign where
  coreg : BitVec 8
  mag : Bool
  /-- `p1` to `p8`. -/
  p : Fin 8 → Bool
  /-- `d1` to `d8`. -/
  d : Fin 8 → Bool

namespace CoAssign

/-- The `case` on `coreg`: which axes carry X, Y, Z and A. -/
def rows : List (BitVec 8 × List Nat) :=
  [(0b00001111, [1, 2, 3, 4]), (0b00010111, [1, 2, 3, 5]), (0b00100111, [1, 2, 3, 6]),
   (0b01000111, [1, 2, 3, 7]), (0b10000111, [1, 2, 3, 8]), (0b00011011, [1, 2, 4, 5]),
   (0b00101011, [1, 2, 4, 6]), (0b01001011, [1, 2, 4, 7]), (0b10001011, [1, 2, 4, 8]),
   (0b00110011, [1, 2, 5, 6]), (0b01010011, [1, 2, 5, 7]), (0b10010011, [1, 2, 5, 8]),
   (0b01100011, [1, 2, 6, 7]), (0b10100011, [1, 2, 6, 8]), (0b11000011, [1, 2, 7, 8]),
   (0b00011101, [1, 3, 4, 5]), (0b00101101, [1, 3, 4, 6]), (0b01001101, [1, 3, 4, 7]),
   (0b10001101, [1, 3, 4, 8]), (0b00110101, [1, 3, 5, 6]), (0b01010101, [1, 3, 5, 7]),
   (0b10010101, [1, 3, 5, 8]), (0b01100101, [1, 3, 6, 7]), (0b10100101, [1, 3, 6, 8]),
   (0b11000101, [1, 3, 7, 8]), (0b00111001, [1, 4, 5, 6]), (0b01011001, [1, 4, 5, 7]),
   (0b10011001, [1, 4, 5, 8]), (0b01101001, [1, 4, 6, 7]), (0b10101001, [1, 4, 6, 8]),
   (0b11001001, [1, 4, 7, 8]), (0b01110001, [1, 5, 6, 7]), (0b10110001, [1, 5, 6, 8]),
   (0b11010001, [1, 5, 7, 8]), (0b11100001, [1, 6, 7, 8]), (0b00011110, [2, 3, 4, 5]),
   (0b00101110, [2, 3, 4, 6]), (0b01001110, [2, 3, 4, 7]), (0b10001110, [2, 3, 4, 8]),
   (0b00110110, [2, 3, 5, 6]), (0b01010110, [2, 3, 5, 7]), (0b10010110, [2, 3, 5, 8]),
   (0b01100110, [2, 3, 6, 7]), (0b10100110, [2, 3, 6, 8]), (0b11000110, [2, 3, 7, 8]),
   (0b00111010, [2, 4, 5, 6]), (0b01011010, [2, 4, 5, 7]), (0b10011010, [2, 4, 5, 8]),
   (0b01101010, [2, 4, 6, 7]), (0b10101010, [2, 4, 6, 8]), (0b11001010, [2, 4, 7, 8]),
   (0b01110010, [2, 5, 6, 7]), (0b10110010, [2, 5, 6, 8]), (0b11010010, [2, 5, 7, 8]),
   (0b11100010, [2, 6, 7, 8]), (0b00111100, [3, 4, 5, 6]), (0b01011100, [3, 4, 5, 7]),
   (0b10011100, [3, 4, 5, 8]), (0b01101100, [3, 4, 6, 7]), (0b10101100, [3, 4, 6, 8]),
   (0b11001100, [3, 4, 7, 8]), (0b01110100, [3, 5, 6, 7]), (0b10110100, [3, 5, 6, 8]),
   (0b11010100, [3, 5, 7, 8]), (0b11100100, [3, 6, 7, 8]), (0b01111000, [4, 5, 6, 7]),
   (0b10111000, [4, 5, 6, 8]), (0b11011000, [4, 5, 7, 8]), (0b11101000, [4, 6, 7, 8]),
   (0b11110000, [5, 6, 7, 8]), (0b00000111, [1, 2, 3]), (0b00001011, [1, 2, 4]),
   (0b00010011, [1, 2, 5]), (0b00100011, [1, 2, 6]), (0b01000011, [1, 2, 7]),
   (0b10000011, [1, 2, 8]), (0b00001101, [1, 3, 4]), (0b00010101, [1, 3, 5]),
   (0b00100101, [1, 3, 6]), (0b01000101, [1, 3, 7]), (0b10000101, [1, 3, 8]),
   (0b00011001, [1, 4, 5]), (0b00101001, [1, 4, 6]), (0b01001001, [1, 4, 7]),
   (0b10001001, [1, 4, 8]), (0b00110001, [1, 5, 6]), (0b01010001, [1, 5, 7]),
   (0b10010001, [1, 5, 8]), (0b01100001, [1, 6, 7]), (0b10100001, [1, 6, 8]),
   (0b11000001, [1, 7, 8]), (0b00001110, [2, 3, 4]), (0b00010110, [2, 3, 5]),
   (0b00100110, [2, 3, 6]), (0b01000110, [2, 3, 7]), (0b10000110, [2, 3, 8]),
   (0b00011010, [2, 4, 5]), (0b00101010, [2, 4, 6]), (0b01001010, [2, 4, 7]),
   (0b10001010, [2, 4, 8]), (0b00110010, [2, 5, 6]), (0b01010010, [2, 5, 7]),
   (0b10010010, [2, 5, 8]), (0b01100010, [2, 6, 7]), (0b10100010, [2, 6, 8]),
   (0b11000010, [2, 7, 8]), (0b00011100, [3, 4, 5]), (0b00101100, [3, 4, 6]),
   (0b01001100, [3, 4, 7]), (0b10001100, [3, 4, 8]), (0b00110100, [3, 5, 6]),
   (0b01010100, [3, 5, 6]), (0b10010100, [3, 5, 8]), (0b01100100, [3, 6, 7]),
   (0b10100100, [3, 6, 8]), (0b11000100, [3, 7, 8]), (0b00111000, [4, 5, 6]),
   (0b01011000, [4, 5, 7]), (0b10011000, [4, 5, 8]), (0b01101000, [4, 6, 7]),
   (0b10101000, [4, 6, 8]), (0b11001000, [4, 7, 8]), (0b01110000, [5, 6, 7]),
   (0b10110000, [5, 7, 8]), (0b11010000, [5, 8]), (0b11100000, [6, 7, 8]), (0b00000011, [1, 2]),
   (0b00000101, [1, 3]), (0b00001001, [1, 4]), (0b00010001, [1, 5]), (0b00100001, [1, 6]),
   (0b01000001, [1, 7]), (0b10000001, [1, 8]), (0b00000110, [2, 3]), (0b00001010, [2, 4]),
   (0b00010010, [2, 5]), (0b00100010, [2, 6]), (0b01000010, [2, 7]), (0b10000010, [2, 8]),
   (0b00001100, [3, 4]), (0b00010100, [3, 5]), (0b00100100, [3, 6]), (0b01000100, [3, 7]),
   (0b10000100, [3, 8]), (0b00011000, [4, 5]), (0b00101000, [4, 6]), (0b01001000, [4, 7]),
   (0b10001000, [4, 8]), (0b00110000, [5, 6]), (0b01010000, [5, 7]), (0b10010000, [5, 8]),
   (0b01100000, [6, 7]), (0b10100000, [6, 8]), (0b11000000, [7, 8]), (0b00000001, [1]),
   (0b00000010, [2]), (0b00000100, [3]), (0b00001000, [4]), (0b00010000, [5]), (0b00100000, [6]),
   (0b01000000, [7]), (0b10000000, [8])]

/-- The axes that carry X, Y, Z and A; the default is the first row. -/
def route (coreg : BitVec 8) : List Nat := (rows.lookup coreg).getD [1, 2, 3, 4]

def channel (coreg : BitVec 8) (k : Fin 8) : Option Axis :=
  ((route coreg).zip [Axis.x, .y, .z, .a]).lookup (k.val + 1)

/-- What an axis carries while the magazine does not turn. -/
def routed (s : CoAssign) (x : Axis → Bool) (k : Fin 8) : Bool :=
  ((channel s.coreg k).map x).getD false

end CoAssign

def coAssign (s : CoAssign) (i : CoAssignInput) : CoAssign where
  coreg :=
    BitVec.ofBool (i.co 7) ++ BitVec.ofBool (i.co 6) ++ BitVec.ofBool (i.co 5) ++
      BitVec.ofBool (i.co 4) ++ BitVec.ofBool (i.co 3) ++ BitVec.ofBool (i.co 2) ++
      BitVec.ofBool (i.co 1) ++ BitVec.ofBool (i.co 0)
  mag := i.magSel
  p k :=
    if s.mag then (if k = 7 then i.mp else false)
    else s.routed i.p k
  d k :=
    if s.mag then (if k = 7 then i.md else false)
    else s.routed i.d k

/-- The magazine control and the axis outputs that it takes over. -/
structure ToolAxes where
  tool : ToolMagCtrl
  axes : CoAssign

structure ToolAxesInput where
  tool : ToolMagInput
  co : Fin 8 → Bool
  p : Axis → Bool
  d : Axis → Bool

def toolAxes (s : ToolAxes) (i : ToolAxesInput) : ToolAxes where
  tool := toolMagCtrl s.tool i.tool
  axes := coAssign s.axes ⟨i.co, i.p, i.d, s.tool.useAxis8, s.tool.rotDir, s.tool.rot⟩

namespace ToolAxes

def run (s : ToolAxes) (inp : Nat → ToolAxesInput) : Nat → ToolAxes := trace toolAxes s inp

variable (s : ToolAxes) (inp : Nat → ToolAxesInput)

theorem run_tool_succ (t : Nat) :
    (run s inp (t + 1)).tool = toolMagCtrl (run s inp t).tool (inp t).tool := rfl

theorem run_axes {t : Nat} {k : Fin 8} (hk : k ≠ 7) :
    (run s inp (t + 2)).axes.p k = (!(run s inp t).tool.useAxis8 &&
        (run s inp (t + 1)).axes.routed (inp (t + 1)).p k) ∧
      (run s inp (t + 2)).axes.d k = (!(run s inp t).tool.useAxis8 &&
        (run s inp (t + 1)).axes.routed (inp (t + 1)).d k) := by
  have hp : (run s inp (t + 2)).axes.p k = if (run s inp t).tool.useAxis8 then
      (if k = 7 then (run s inp (t + 1)).tool.rot else false)
    else (run s inp (t + 1)).axes.routed (inp (t + 1)).p k := rfl
  have hd : (run s inp (t + 2)).axes.d k = if (run s inp t).tool.useAxis8 then
      (if k = 7 then (run s inp (t + 1)).tool.rotDir else false)
    else (run s inp (t + 1)).axes.routed (inp (t + 1)).d k := rfl
  rw [hp, hd, if_neg hk, if_neg hk]
  cases (run s inp t).tool.useAxis8 <;> simp

/-- There has been a reset, or a command to turn. -/
def Begun (t : Nat) : Prop :=
  ∃ k < t, (inp k).tool.rstTm = false ∨ (inp k).tool.op = 0b1010

/-- Once there has been a reset or a command, `use_axis8` says whether the magazine turns,
and `co_assign`, which is two cycles behind, blanks axes 1 to 7 exactly while it does. -/
structure Matches (r : Nat → ToolAxes) (inp : Nat → ToolAxesInput) : Prop where
  flag : ∀ t, Begun inp t → (r t).tool.useAxis8 = (r t).tool.rotState
  blanked : ∀ t, Begun inp t → ∀ k, k ≠ 7 →
    (r (t + 2)).axes.p k =
        (!(r t).tool.rotState && (r (t + 1)).axes.routed (inp (t + 1)).p k) ∧
      (r (t + 2)).axes.d k =
        (!(r t).tool.rotState && (r (t + 1)).axes.routed (inp (t + 1)).d k)

theorem begun_succ (t : Nat) :
    Begun inp (t + 1) ↔
      Begun inp t ∨ (inp t).tool.rstTm = false ∨ (inp t).tool.op = 0b1010 := by
  constructor
  · rintro ⟨k, hk, hevent⟩
    cases Nat.lt_or_eq_of_le (Nat.le_of_lt_succ hk) with
    | inl hlt => exact .inl ⟨k, hlt, hevent⟩
    | inr heq => exact .inr (heq ▸ hevent)
  · rintro (⟨k, hk, hevent⟩ | hevent)
    · exact ⟨k, Nat.lt_succ_of_lt hk, hevent⟩
    · exact ⟨t, Nat.lt_succ_self t, hevent⟩

/-- `use_axis8` matches the rotation in a run if and only if no reset finds it up. -/
theorem matches_iff (s : ToolAxes) (inp : Nat → ToolAxesInput) :
    Matches (run s inp) inp ↔
      ∀ t, (inp t).tool.rstTm = false → (run s inp t).tool.useAxis8 = false := by
  constructor
  · intro h t hrst
    have hflag := h.flag (t + 1) ⟨t, Nat.lt_succ_self t, .inl hrst⟩
    rw [run_tool_succ, ToolMagCtrl.step_reset _ _ hrst] at hflag
    exact hflag
  · intro h
    have hflag (t : Nat) : Begun inp t →
        (run s inp t).tool.useAxis8 = (run s inp t).tool.rotState := by
      induction t with
      | zero => rintro ⟨k, hk, -⟩; cases hk
      | succ t ih =>
          rw [begun_succ, run_tool_succ]
          intro hbegun
          cases hrst : (inp t).tool.rstTm with
          | false =>
              rw [ToolMagCtrl.step_reset _ _ hrst]
              exact h t hrst
          | true =>
              simp only [toolMagCtrl, hrst, Bool.not_true, Bool.false_eq_true, if_false]
              by_cases hop : (inp t).tool.op = 0b1010
              · simp only [hop, if_true]
              · simp only [hrst, hop, Bool.true_eq_false, or_self, or_false] at hbegun
                rw [ih hbegun]
    refine ⟨hflag, fun t hbegun k hk => ?_⟩
    rw [← hflag t hbegun]
    exact run_axes s inp hk

/-- Tool 8 is commanded, and the reset comes while the magazine turns. -/
def resetTurning (t : Nat) : ToolAxesInput where
  tool := ⟨t != 5, if t = 0 then 0x8A else 0, true, true, true, false⟩
  co _ := false
  p _ := false
  d _ := false

theorem matches_resetTurning_false :
    ¬ Matches (run ⟨ToolMagCtrl.powerUp, ⟨0, false, fun _ => false, fun _ => false⟩⟩ resetTurning)
      resetTurning := by
  intro h
  have hflag := h.flag 6 ⟨5, by decide, .inl rfl⟩
  exact absurd hflag (by decide)

end ToolAxes

end CncCard
