import Mathlib.Data.BitVec

/-!
Words put together of fields, and the fields of such a word.
-/

namespace Clocked

theorem extractLsb_field {m n k : Nat} (a : BitVec m) (b : BitVec n) (c : BitVec k) :
    (a ++ b ++ c).extractLsb' k n = b := by
  apply BitVec.eq_of_getLsbD_eq
  intro i hi
  rw [BitVec.getLsbD_extractLsb', BitVec.getLsbD_append, BitVec.getLsbD_append]
  simp [hi]

theorem toNat_append_add {m n : Nat} (a : BitVec m) (b : BitVec n) :
    (a ++ b).toNat = a.toNat * 2 ^ n + b.toNat := by
  rw [BitVec.toNat_append, ← Nat.shiftLeft_add_eq_or_of_lt b.isLt, Nat.shiftLeft_eq]

/-- The word of four bytes, the lowest first. -/
def littleEndian (b : Nat → BitVec 8) : BitVec 32 := b 3 ++ b 2 ++ b 1 ++ b 0

theorem littleEndian_toNat (b : Nat → BitVec 8) : (littleEndian b).toNat =
    (b 0).toNat + 2 ^ 8 * (b 1).toNat + 2 ^ 16 * (b 2).toNat + 2 ^ 24 * (b 3).toNat := by
  rw [littleEndian, toNat_append_add, toNat_append_add, toNat_append_add]
  omega

theorem littleEndian_eq_iff {b b' : Nat → BitVec 8} :
    littleEndian b = littleEndian b' ↔ ∀ k < 4, b k = b' k := by
  constructor
  · intro h k hk
    have hword := congrArg BitVec.toNat h
    rw [littleEndian_toNat, littleEndian_toNat] at hword
    have h₀ := (b 0).isLt
    have h₁ := (b 1).isLt
    have h₂ := (b 2).isLt
    have h₀' := (b' 0).isLt
    have h₁' := (b' 1).isLt
    have h₂' := (b' 2).isLt
    obtain rfl | rfl | rfl | rfl : k = 0 ∨ k = 1 ∨ k = 2 ∨ k = 3 := by omega
    all_goals
      apply BitVec.eq_of_toNat_eq
      omega
  · intro h
    rw [littleEndian, littleEndian, h 0 (by decide), h 1 (by decide), h 2 (by decide),
      h 3 (by decide)]

/-- Bytes shifted to their places and added up. -/
theorem littleEndian_eq_add (b : Nat → BitVec 8) :
    (b 0).setWidth 32 + (b 1).setWidth 32 <<< 8 + (b 2).setWidth 32 <<< 16 +
      (b 3).setWidth 32 <<< 24 = littleEndian b := by
  have h₀ := (b 0).isLt
  have h₁ := (b 1).isLt
  have h₂ := (b 2).isLt
  have h₃ := (b 3).isLt
  apply BitVec.eq_of_toNat_eq
  rw [littleEndian_toNat]
  simp only [BitVec.toNat_add, BitVec.toNat_shiftLeft, BitVec.toNat_setWidth, Nat.shiftLeft_eq]
  omega

end Clocked
