import CncCard.Clocked.Edges
import Mathlib.Data.BitVec

/-!
A divided clock: a counter that goes round in `half` cycles and an output that changes each
time it does. From low on, `n` cycles give the level and the number of pulses.
-/

namespace Clocked

/-- The level after `n` cycles. -/
def square (half n : Nat) : Bool := decide (n / half % 2 = 1)

variable {half n : Nat}

theorem round_eq (h : n % half + 1 = half) : n + 1 = half * (n / half + 1) := by
  rw [Nat.mul_add, Nat.mul_one]
  have hsplit := Nat.div_add_mod n half
  omega

theorem round_div (h : n % half + 1 = half) : (n + 1) / half = n / half + 1 := by
  rw [round_eq h, Nat.mul_div_cancel_left _ (by omega)]

theorem round_mod (h : n % half + 1 = half) : (n + 1) % half = 0 := by
  rw [round_eq h, Nat.mul_mod_right]

theorem part_lt (hpos : 0 < half) (h : n % half + 1 ≠ half) : n % half + 1 < half :=
  Nat.lt_of_le_of_ne (Nat.mod_lt n hpos) h

theorem part_div (hpos : 0 < half) (h : n % half + 1 ≠ half) : (n + 1) / half = n / half := by
  have hn : n + 1 = half * (n / half) + (n % half + 1) := by
    have hsplit := Nat.div_add_mod n half
    omega
  rw [hn, Nat.mul_add_div hpos, Nat.div_eq_of_lt (part_lt hpos h), Nat.add_zero]

theorem part_mod (hpos : 0 < half) (h : n % half + 1 ≠ half) :
    (n + 1) % half = n % half + 1 := by
  rw [← Nat.mod_add_mod, Nat.mod_eq_of_lt (part_lt hpos h)]

theorem square_zero (half : Nat) : square half 0 = false := by
  rw [square, Nat.zero_div]
  rfl

theorem square_round (h : n % half + 1 = half) : square half (n + 1) = !square half n := by
  rw [square, square, round_div h, ← decide_not, decide_eq_decide]
  omega

theorem square_part (hpos : 0 < half) (h : n % half + 1 ≠ half) :
    square half (n + 1) = square half n := by
  rw [square, square, part_div hpos h]

/-- One cycle of the divider: the counter runs to `last`, and the output changes there. -/
theorem divider_step {w : Nat} {c last : BitVec w} (hlast : last.toNat + 1 = half)
    (hc : c.toNat = n % half) :
    (if c = last then 0 else c + 1).toNat = (n + 1) % half ∧
      (square half n ^^ c == last) = square half (n + 1) := by
  have hpos : 0 < half := hlast ▸ Nat.succ_pos _
  by_cases hend : c = last
  · have hround : n % half + 1 = half := by rw [← hc, hend, hlast]
    rw [if_pos hend, round_mod hround, square_round hround, hend, beq_self_eq_true,
      Bool.xor_true]
    exact ⟨BitVec.toNat_zero, rfl⟩
  · have hpart : n % half + 1 ≠ half := fun heq =>
      hend (BitVec.eq_of_toNat_eq (by omega))
    have hfit : c.toNat + 1 < 2 ^ w := by
      have hlt := part_lt hpos hpart
      have hbound := last.isLt
      omega
    rw [if_neg hend, part_mod hpos hpart, square_part hpos hpart, beq_false_of_ne hend,
      Bool.xor_false, ← hc, BitVec.toNat_add, BitVec.ofNat_eq_ofNat, BitVec.toNat_ofNat,
      Nat.add_mod_mod, Nat.mod_eq_of_lt hfit]
    exact ⟨rfl, rfl⟩

theorem toggles_square (hpos : 0 < half) (n : Nat) : toggles (square half) n = n / half := by
  induction n with
  | zero => exact (Nat.zero_div half).symm
  | succ n ih =>
      rw [toggles_succ, ih]
      by_cases h : n % half + 1 = half
      · rw [square_round h, round_div h, Bool.xor_not, Bool.xor_self]
        rfl
      · rw [square_part hpos h, part_div hpos h, Bool.xor_self]
        rfl

/-- Every other round is a pulse, from the first one on. -/
theorem edges_square (hpos : 0 < half) (n : Nat) :
    edges (square half) (fun _ => true) 0 (n + 1) = (n / half + 1) / 2 := by
  have htwice := two_mul_edges (square_zero half) n
  rw [toggles_square hpos] at htwice
  have hlevel : (square half n).toNat = n / half % 2 := by
    rw [square]
    rcases Nat.mod_two_eq_zero_or_one (n / half) with heven | hodd
    · rw [heven]
      rfl
    · rw [hodd]
      rfl
  omega

end Clocked
