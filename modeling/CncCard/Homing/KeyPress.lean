import CncCard.Clocked.Runs
import CncCard.Homing.KeyGen
import Mathlib.Algebra.BigOperators.Intervals

/-!
One event for each long press. The counter of a channel follows the streak of its key up to
`cMax` and stays there, so it goes through `cButton` once in each run of the key.
-/

namespace CncCard
open Clocked

/-- The registers of a channel, as wide as they are in the source. -/
structure KeyRegs where
  count : BitVec 22
  rdy : Bool

namespace KeyRegs

def clock (s : KeyRegs) (key : Bool) : KeyRegs where
  count := if key then (if s.count < 4194303 then s.count + 1 else s.count) else 0
  rdy := s.count == 4000000

/-- The three channels of `key_gen`, each with its own key. -/
def keyGen (s : Fin 3 → KeyRegs) (key : Fin 3 → Bool) : Fin 3 → KeyRegs :=
  fun n => (s n).clock (key n)

def toChannel (s : KeyRegs) : KeyChannel := ⟨s.count.toNat, s.rdy⟩

/-- The addition does not wrap, since it is made below the largest count only. -/
theorem toChannel_clock (s : KeyRegs) (key : Bool) :
    (s.clock key).toChannel = s.toChannel.clock key := by
  have hrdy : (s.count == 4000000) = (s.count.toNat == cButton) := by
    rw [Bool.eq_iff_iff, beq_iff_eq, beq_iff_eq, ← BitVec.toNat_inj]
    exact Iff.rfl
  have hcount : (s.clock key).count.toNat = (s.toChannel.clock key).count := by
    cases key with
    | false => rfl
    | true =>
        have hlt : s.count < 4194303 ↔ s.count.toNat < cMax := BitVec.lt_def
        change (if s.count < 4194303 then s.count + 1 else s.count).toNat =
          if s.count.toNat < cMax then s.count.toNat + 1 else s.count.toNat
        by_cases hroom : s.count.toNat < cMax
        · rw [if_pos hroom, if_pos (hlt.mpr hroom), BitVec.toNat_add]
          exact Nat.mod_eq_of_lt (Nat.lt_of_le_of_lt hroom (by decide : cMax < 2 ^ 22))
        · rw [if_neg hroom, if_neg (mt hlt.mp hroom)]
  rw [toChannel, hcount]
  exact congrArg _ hrdy

end KeyRegs

namespace KeyChannel

/-- The counter is the streak of the key, as far as it goes. -/
theorem run_count (key : Nat → Bool) (rdy : Bool) (t : Nat) :
    (trace clock ⟨0, rdy⟩ key t).count = min (streak key t) cMax := by
  induction t with
  | zero => exact (Nat.zero_min cMax).symm
  | succ t ih =>
      rw [trace_succ, clock, ih]
      cases hkey : key t with
      | false => rw [streak_succ_low hkey]; exact (Nat.zero_min cMax).symm
      | true =>
          rw [streak_succ_high hkey]
          simp only [if_true]
          split <;> omega

theorem run_rdy_succ (key : Nat → Bool) (rdy : Bool) (t : Nat) :
    (trace clock ⟨0, rdy⟩ key (t + 1)).rdy = true ↔ streak key t = cButton := by
  rw [trace_succ, clock_rdy, run_count]
  simp only [cMax, cButton]
  omega

end KeyChannel

namespace KeyRegs

/-- A channel raises `rdy` once for each run of its key that comes to `cButton` samples, in
the cycle behind, and for one cycle. A high sample never lowers the counter. -/
structure OneEvent (key : Nat → Bool) (r : Nat → KeyRegs) : Prop where
  events : ∀ t, ∑ k ∈ Finset.range (t + 1), (r (k + 1)).rdy.toNat = longRuns key cButton t
  single : ∀ t, (r (t + 1)).rdy = true → (r (t + 2)).rdy = false
  noWrap : ∀ t, key t = true →
    (r (t + 1)).count.toNat = min ((r t).count.toNat + 1) cMax

section Run

variable (key : Nat → Bool) (rdy : Bool)

/-- The registers behave as the channel does, from a count of 0 on. -/
theorem run_toChannel (t : Nat) : (trace clock ⟨0, rdy⟩ key t).toChannel =
    trace KeyChannel.clock ⟨0, rdy⟩ key t :=
  trace_part (p := toChannel) toChannel_clock t

theorem run_rdy_succ (t : Nat) :
    (trace clock ⟨0, rdy⟩ key (t + 1)).rdy = decide (streak key t = cButton) := by
  rw [Bool.eq_iff_iff, decide_eq_true_iff, ← KeyChannel.run_rdy_succ key rdy t,
    ← run_toChannel key rdy]
  rfl

theorem run_count (t : Nat) :
    (trace clock ⟨0, rdy⟩ key t).count.toNat = min (streak key t) cMax := by
  rw [← KeyChannel.run_count key rdy t, ← run_toChannel key rdy]
  rfl

theorem oneEvent : OneEvent key (trace clock ⟨0, rdy⟩ key) where
  events t := by
    induction t with
    | zero =>
        rw [longRuns_zero (by decide), Finset.sum_range_one, run_rdy_succ]
        rfl
    | succ t ih =>
        rw [Finset.sum_range_succ, ih, longRuns_succ, run_rdy_succ]
        split
        · next hreached => rw [decide_eq_true hreached]; rfl
        · next hnot => rw [decide_eq_false hnot]; rfl
  single t hrdy := by
    rw [run_rdy_succ, decide_eq_true_iff] at hrdy
    rw [run_rdy_succ, decide_eq_false_iff_not]
    cases hkey : key t with
    | false => rw [streak_succ_low hkey]; decide
    | true => rw [streak_succ_high hkey, hrdy]; decide
  noWrap t hkey := by
    rw [run_count, run_count, streak_succ_high hkey]
    omega

end Run

/-- Each channel of `key_gen` has one event for each press of its key. -/
theorem keyGen_oneEvent (key : Nat → Fin 3 → Bool) (rdy : Fin 3 → Bool) (n : Fin 3) :
    OneEvent (fun t => key t n) fun t => trace keyGen (fun n => ⟨0, rdy n⟩) key t n := by
  have hstep (s : Fin 3 → KeyRegs) (i : Fin 3 → Bool) : keyGen s i n = (s n).clock (i n) := rfl
  have hpart (t : Nat) : trace keyGen (fun n => ⟨0, rdy n⟩) key t n =
      trace clock ⟨0, rdy n⟩ (fun k => key k n) t :=
    trace_part (p := fun s : Fin 3 → KeyRegs => s n) hstep t
  simp only [hpart]
  exact oneEvent _ _

end KeyRegs

end CncCard
