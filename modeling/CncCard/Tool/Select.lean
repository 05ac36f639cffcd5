import CncCard.Tool.MagCtrl

/-!
Tool selection. The command word sets the target and starts the rotation in every cycle
in which it is in the register, after the comparison with the pocket counter, so a
magazine that comes to its tool under a held command turns on.
-/

namespace CncCard
open Clocked

/-- A history of tool selections: the tool in the command register in each cycle, less
one, or nothing while the register is clear. Each command is cleared before the next. -/
structure Selection where
  cmd : Nat → Option (Fin 24)
  cleared : ∀ t m n, cmd t = some m → cmd (t + 1) = some n → m = n
  aheFin : Nat → Bool
  backFin : Nat → Bool
  rotCount : Nat → Bool
  clrCounts : Nat → Bool

namespace Selection

def number (n : Fin 24) : BitVec 20 := BitVec.ofNat 20 (n + 1)

/-- `TOOL_n` in the register. -/
def word : Option (Fin 24) → BitVec 32
  | none => 0
  | some n => BitVec.ofNat 32 (0x10 * (n + 1) + 0xA)

theorem word_op (c : Option (Fin 24)) :
    (word c).extractLsb 3 0 = if c.isSome then 0b1010#4 else 0 := by
  cases c with
  | none => rfl
  | some n => revert n; decide

theorem word_tool (c : Option (Fin 24)) :
    ToolMagInput.toolField (word c) = c.map number := by
  cases c with
  | none => rfl
  | some n => revert n; decide

variable (x : Selection)

def input (t : Nat) : ToolMagInput :=
  ⟨true, word (x.cmd t), x.aheFin t, x.backFin t, x.rotCount t, x.clrCounts t⟩

theorem input_op (t : Nat) : (x.input t).op = 0b1010 ↔ (x.cmd t).isSome = true := by
  simp only [ToolMagInput.op, input, word_op]
  cases (x.cmd t).isSome <;> simp

theorem input_tool (t : Nat) : (x.input t).tool = (x.cmd t).map number := word_tool (x.cmd t)

/-- The last tool commanded, this cycle included. -/
def commanded : Nat → Option (Fin 24)
  | 0 => x.cmd 0
  | t + 1 => (x.cmd (t + 1)).or (commanded t)

variable (s : ToolMagCtrl)

def run : Nat → ToolMagCtrl := ToolMagCtrl.run s x.input

def AtTool (t : Nat) : Prop :=
  ∃ n, x.commanded t = some n ∧ (x.run s t).rotNumber = number n

/-- The pocket counter becomes equal to the commanded number. -/
def Arrives (t : Nat) : Prop := x.AtTool s t ∧ ∀ k, k + 1 = t → ¬ x.AtTool s k

/-- A command comes into the register. -/
def Starts (t : Nat) : Prop := (x.cmd t).isSome = true ∧ ∀ k, k + 1 = t → x.cmd k = none

/-- Every arrival stops the rotation within two cycles, and until the next command. -/
def Stops : Prop :=
  ∀ t, x.Arrives s t → ∃ u, t ≤ u ∧ u ≤ t + 2 ∧
    ∀ v, u ≤ v → (∀ k, t < k → k < v → ¬ x.Starts k) → (x.run s v).rotState = false

/-- The step leaves the pocket counter as it is. -/
def Keeps (s : ToolMagCtrl) (i : ToolMagInput) : Prop :=
  if i.clrCounts then s.rotNumber = 0 else s.counts i = false

variable {x s}

theorem run_targetNumber (t : Nat) :
    (x.run s (t + 1)).targetNumber = ((x.cmd t).map number).getD (x.run s t).targetNumber := by
  rw [← x.input_tool t]
  rfl

theorem run_rotState (t : Nat) :
    (x.run s (t + 1)).rotState =
      if (x.cmd t).isSome then true
      else if (x.run s t).rotNumber = (x.run s t).targetNumber then false
      else (x.run s t).rotState :=
  if_congr (x.input_op t) rfl rfl

theorem run_rotNumber (t : Nat) :
    (x.run s (t + 1)).rotNumber =
      if x.clrCounts t then 0
      else if (x.run s t).counts (x.input t) then (x.run s t).rotNumber + 1
      else (x.run s t).rotNumber := rfl

theorem run_timeDelayTwo (t : Nat) :
    (x.run s (t + 1)).timeDelayTwo =
      if x.clrCounts t then 0
      else if x.rotCount t then (x.run s t).timeDelayTwo
      else if (x.run s t).timeDelayTwo = 0x7d then 0
      else (x.run s t).timeDelayTwo + 1 := rfl

theorem keeps_iff (t : Nat) :
    Keeps (x.run s t) (x.input t) ↔ (x.run s (t + 1)).rotNumber = (x.run s t).rotNumber := by
  rw [run_rotNumber, Keeps, show (x.input t).clrCounts = x.clrCounts t from rfl]
  split
  · exact eq_comm
  · cases (x.run s t).counts (x.input t) <;> simp

theorem target_of_commanded {t : Nat} {n : Fin 24} (h : x.commanded t = some n) :
    (x.run s (t + 1)).targetNumber = number n := by
  induction t with
  | zero =>
      rw [run_targetNumber, show x.cmd 0 = some n from h]
      rfl
  | succ t ih =>
      rw [run_targetNumber]
      cases hcmd : x.cmd (t + 1) with
      | none =>
          rw [commanded, hcmd] at h
          exact ih h
      | some m =>
          rw [commanded, hcmd] at h
          cases h
          rfl

/-- With the register clear, the target is the commanded tool. -/
theorem target_of_clear {t : Nat} {n : Fin 24} (h : x.commanded t = some n)
    (hclear : x.cmd t = none) : (x.run s t).targetNumber = number n := by
  cases t with
  | zero => rw [commanded, hclear] at h; cases h
  | succ t =>
      rw [commanded, hclear] at h
      exact target_of_commanded h

theorem turning_of_held {t : Nat} {n : Fin 24} (hcmd : x.cmd t = some n) :
    (x.run s (t + 1)).rotState = true := by
  rw [run_rotState, hcmd]
  rfl

/-- A stopped magazine stands still until a command comes. -/
theorem stopped_stays {a v : Nat} (hclear : x.cmd a = none)
    (hstop : (x.run s (a + 1)).rotState = false) (hav : a + 1 ≤ v)
    (hnone : ∀ k, a < k → k < v → ¬ x.Starts k) : (x.run s v).rotState = false := by
  have hboth : (x.run s v).rotState = false ∧ x.cmd (v - 1) = none := by
    induction v, hav using Nat.le_induction with
    | base => exact ⟨hstop, hclear⟩
    | succ v hav ih =>
        obtain ⟨hlow, hbefore⟩ := ih fun k hk hkv => hnone k hk (Nat.lt_succ_of_lt hkv)
        have hcmd : x.cmd v = none := by
          by_contra hsome
          refine hnone v hav (Nat.lt_succ_self v) ⟨Option.ne_none_iff_isSome.mp hsome, ?_⟩
          intro k hk
          rw [← hbefore, ← hk]
          rfl
        refine ⟨?_, hcmd⟩
        rw [run_rotState, hcmd, hlow]
        simp
  exact hboth.1

/-- Selections stop at the commanded tool if and only if, at every arrival, the register
is clear in that cycle, or in the next one with the pocket counter still there. -/
theorem stops_iff (s : ToolMagCtrl) (x : Selection) :
    x.Stops s ↔ ∀ t, x.Arrives s t →
      x.cmd t = none ∨ (x.cmd (t + 1) = none ∧ Keeps (x.run s t) (x.input t)) := by
  constructor
  · intro h t harr
    obtain ⟨u, -, hu, hstop⟩ := h t harr
    obtain ⟨⟨n, hn, hat⟩, -⟩ := harr
    cases hcmd : x.cmd t with
    | none => exact .inl rfl
    | some m =>
        refine .inr ?_
        have hlow : (x.run s (t + 2)).rotState = false := by
          refine hstop (t + 2) hu fun k hk hkt hstart => ?_
          have hprev := hstart.2 t (by omega)
          rw [hcmd] at hprev
          cases hprev
        rw [run_rotState] at hlow
        split at hlow
        · cases hlow
        · next hclear =>
            refine ⟨by simpa using hclear, ?_⟩
            split at hlow
            · next heq =>
                rw [keeps_iff, heq, hat]
                exact target_of_commanded hn
            · rw [turning_of_held hcmd] at hlow
              cases hlow
  · intro h t harr
    obtain ⟨⟨n, hn, hat⟩, -⟩ := id harr
    cases h t harr with
    | inl hclear =>
        refine ⟨t + 1, by omega, by omega, fun v hv hnone => stopped_stays hclear ?_ hv hnone⟩
        rw [run_rotState, hclear, if_pos (hat.trans (target_of_clear hn hclear).symm)]
        rfl
    | inr hnext =>
        obtain ⟨hclear, hkeep⟩ := hnext
        refine ⟨t + 2, by omega, Nat.le_refl _, fun v hv hnone => ?_⟩
        refine stopped_stays hclear ?_ hv fun k hk => hnone k (by omega)
        rw [keeps_iff] at hkeep
        rw [run_rotState, hclear, if_pos ((hkeep.trans hat).trans (target_of_commanded hn).symm)]
        rfl

/-- Tool 1, with the command left in the register and the sensor low all the time. -/
def heldOne : Selection where
  cmd _ := some 0
  cleared _ _ _ hm hn := by rw [← Option.some_inj, ← hm, ← hn]
  aheFin _ := true
  backFin _ := true
  rotCount _ := false
  clrCounts _ := false

theorem heldOne_count {t : Nat} (ht : t ≤ 125) :
    (heldOne.run ToolMagCtrl.powerUp t).timeDelayTwo = BitVec.ofNat 7 t ∧
      (heldOne.run ToolMagCtrl.powerUp t).rotNumber = 0 := by
  induction t with
  | zero => exact ⟨rfl, rfl⟩
  | succ t ih =>
      obtain ⟨hdelay, hnumber⟩ := ih (by omega)
      have hpart : BitVec.ofNat 7 t ≠ 0x7d := by
        intro heq
        have hnat := congrArg BitVec.toNat heq
        simp only [BitVec.toNat_ofNat, BitVec.reduceToNat] at hnat
        omega
      rw [run_timeDelayTwo, run_rotNumber, ToolMagCtrl.counts, hdelay, hnumber,
        beq_false_of_ne hpart, if_neg hpart, Bool.and_false, BitVec.ofNat_add]
      exact ⟨rfl, rfl⟩

theorem stops_heldOne_false : ¬ heldOne.Stops ToolMagCtrl.powerUp := by
  intro h
  obtain ⟨hdelay, hnumber⟩ := heldOne_count (Nat.le_refl 125)
  have hat : (heldOne.run ToolMagCtrl.powerUp (125 + 1)).rotNumber = 1 := by
    rw [run_rotNumber, ToolMagCtrl.counts, hdelay, hnumber]
    rfl
  have harr : heldOne.Arrives ToolMagCtrl.powerUp 126 := by
    refine ⟨⟨0, rfl, hat⟩, fun k hk hbefore => ?_⟩
    obtain rfl : k = 125 := by omega
    obtain ⟨n, hn, hnum⟩ := hbefore
    cases hn
    rw [hnumber] at hnum
    cases hnum
  obtain ⟨u, -, hu, hstop⟩ := h 126 harr
  have hlow := hstop 128 hu fun k _ hk hstart => by
    have hprev := hstart.2 (k - 1) (by omega)
    cases hprev
  rw [turning_of_held (n := 0) rfl] at hlow
  cases hlow

end Selection

end CncCard
