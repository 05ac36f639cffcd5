import Mathlib.Algebra.GroupWithZero.Nat

/-!
The numbered ports of the card: the limit switches `s1` to `s6` are `Fin 6`, and the axes
that `co1` to `co8` enable are `Fin 8`. With the sizes as instances a port number is the
same term in every module.
-/

namespace CncCard

instance neZero_switches : NeZero 6 := ⟨by decide⟩

instance neZero_axes : NeZero 8 := ⟨by decide⟩

end CncCard
