import Mathlib.Data.List.Basic

/-!
Packet streams: words with a mark on the first and on the last word of each packet.
A stream is framed if a word opens a packet exactly when none is open.
-/

namespace Clocked

universe u
variable {α : Type u}

structure Beat (α : Type u) where
  data : α
  sop : Bool
  eop : Bool
  deriving DecidableEq

/-- The stream goes on from a point where a packet is open or not. -/
def Framed : Bool → List (Beat α) → Prop
  | _, [] => True
  | inside, b :: bs => b.sop = !inside ∧ Framed (!b.eop) bs

theorem Framed.head_sop {b : Beat α} {bs : List (Beat α)} (h : Framed false (b :: bs)) :
    b.sop = true := h.1

end Clocked
