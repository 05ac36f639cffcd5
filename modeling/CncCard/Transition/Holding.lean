import Mathlib.Data.List.Count
import Mathlib.Data.List.Nodup

/-!
Resources that are taken and given back: the log of both, and the stack of what is held
after a log in which everything is given back in the reverse order. On a ladder the
resources are always taken in the same order.
-/

namespace Transition

universe u
variable {ρ : Type u}

inductive Holding (ρ : Type u) where
  | take (r : ρ)
  | give (r : ρ)
  deriving DecidableEq

/-- A resource stands on the part of the ladder that has been climbed if it comes before its end. -/
theorem mem_climbed_iff {ladder : List ρ} (hnodup : ladder.Nodup) {r : ρ} {j k : Nat}
    (hr : ladder[j]? = some r) :
    r ∈ ladder.take k ↔ j < k := by
  rw [List.mem_take_iff_getElem]
  obtain ⟨hj, hget⟩ := List.getElem?_eq_some_iff.mp hr
  constructor
  · rintro ⟨i, hi, heq⟩
    have hsame : i = j := (hnodup.getElem_inj_iff).mp (heq.trans hget.symm)
    omega
  · intro hlt
    exact ⟨j, by omega, hget⟩

variable [DecidableEq ρ]

/-- What is held after the log, the latest first; giving back anything else has no result. -/
def held : List ρ → List (Holding ρ) → Option (List ρ)
  | stack, [] => some stack
  | stack, .take r :: log => held (r :: stack) log
  | [], .give _ :: _ => none
  | top :: stack, .give r :: log => if top = r then held stack log else none

theorem held_append (stack : List ρ) (log log' : List (Holding ρ)) :
    held stack (log ++ log') = (held stack log).bind fun st => held st log' := by
  induction log generalizing stack with
  | nil => rfl
  | cons e log ih =>
      cases e with
      | take r => exact ih (r :: stack)
      | give r =>
          cases stack with
          | nil => rfl
          | cons top stack =>
              simp only [List.cons_append, held]
              split
              · exact ih stack
              · rfl

variable {stack stack' : List ρ} {log : List (Holding ρ)}

theorem held_take (h : held stack log = some stack') (r : ρ) :
    held stack (log ++ [.take r]) = some (r :: stack') := by
  rw [held_append, h]
  rfl

theorem held_give {r : ρ} (h : held stack log = some (r :: stack')) :
    held stack (log ++ [.give r]) = some stack' := by
  rw [held_append, h]
  exact if_pos rfl

/-- Nothing is given back that was not taken, and what is held has not been given back. -/
theorem count_of_held (h : held stack log = some stack') (r : ρ) :
    log.count (.take r) + stack.count r = log.count (.give r) + stack'.count r := by
  induction log generalizing stack with
  | nil =>
      obtain rfl := Option.some.inj h
      rfl
  | cons e log ih =>
      cases e with
      | take x =>
          have hrest := ih h
          simp only [List.count_cons, beq_iff_eq, Holding.take.injEq, reduceCtorEq,
            if_false] at hrest ⊢
          omega
      | give x =>
          cases stack with
          | nil => cases h
          | cons top stack =>
              simp only [held] at h
              split at h
              · next heq =>
                  subst heq
                  have hrest := ih h
                  simp only [List.count_cons, beq_iff_eq, Holding.give.injEq, reduceCtorEq,
                    if_false] at hrest ⊢
                  omega
              · cases h

section Ladder

variable {ladder : List ρ} {k : Nat} {r : ρ}

theorem held_climb (h : held [] log = some (ladder.take k).reverse) (hr : ladder[k]? = some r) :
    held [] (log ++ [.take r]) = some (ladder.take (k + 1)).reverse := by
  rw [held_take h, List.take_add_one, hr]
  simp

theorem held_descend (h : held [] log = some (ladder.take (k + 1)).reverse)
    (hr : ladder[k]? = some r) :
    held [] (log ++ [.give r]) = some (ladder.take k).reverse := by
  apply held_give
  rw [h, List.take_add_one, hr]
  simp

end Ladder

end Transition
