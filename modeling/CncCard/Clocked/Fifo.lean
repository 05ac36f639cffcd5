import Mathlib.Data.List.Basic

/-!
Single-clock queues of a fixed depth. A write that finds the queue full and a
read that finds it empty are ignored. `Fifo` shows the oldest word to its
reader, `RegFifo` keeps the last word read in an output register.
-/

namespace Clocked

universe u
variable {α : Type u} {depth : Nat}

structure Fifo (α : Type u) (depth : Nat) where
  words : List α
  bounded : words.length ≤ depth

namespace Fifo

def empty : Fifo α depth := ⟨[], Nat.zero_le _⟩

@[simp] theorem words_empty : (empty : Fifo α depth).words = [] := rfl

def isEmpty (f : Fifo α depth) : Bool := f.words.isEmpty

/-- The word that a read request takes in this cycle. -/
def taken (f : Fifo α depth) (rdreq : Bool) : List α :=
  if rdreq then f.words.take 1 else []

/-- The word that a write request adds in this cycle. -/
def accepted (f : Fifo α depth) (wrreq : Option α) : List α :=
  if f.words.length < depth then wrreq.toList else []

theorem length_accepted_le (f : Fifo α depth) (wrreq : Option α) :
    (f.accepted wrreq).length ≤ 1 := by
  unfold accepted
  cases wrreq <;> split <;> simp

theorem length_advance_le (f : Fifo α depth) (wrreq : Option α) (rdreq : Bool) :
    ((if rdreq then f.words.drop 1 else f.words) ++ f.accepted wrreq).length ≤ depth := by
  have hf := f.bounded
  have hw : wrreq.toList.length ≤ 1 := by cases wrreq <;> simp
  have ha : (f.accepted wrreq).length + f.words.length ≤ depth := by
    unfold accepted
    split
    · omega
    · simpa using hf
  cases rdreq
  · simp; omega
  · simp; omega

def clock (f : Fifo α depth) (wrreq : Option α) (rdreq : Bool) : Fifo α depth where
  words := (if rdreq then f.words.drop 1 else f.words) ++ f.accepted wrreq
  bounded := f.length_advance_le wrreq rdreq

theorem length_clock_le (f : Fifo α depth) (wrreq : Option α) (rdreq : Bool) :
    (f.clock wrreq rdreq).words.length ≤ f.words.length + wrreq.toList.length := by
  have haccepted : (f.accepted wrreq).length ≤ wrreq.toList.length := by
    unfold accepted
    split
    · exact Nat.le_refl _
    · exact Nat.zero_le _
  cases rdreq
  · simp only [clock, Bool.false_eq_true, if_false, List.length_append]
    omega
  · simp only [clock, if_true, List.length_append, List.length_drop]
    omega

theorem accepted_of_lt {f : Fifo α depth} (h : f.words.length < depth) (wrreq : Option α) :
    f.accepted wrreq = wrreq.toList :=
  if_pos h

/-- Nothing is lost, doubled or reordered in one cycle. -/
theorem taken_append_clock (f : Fifo α depth) (wrreq : Option α) (rdreq : Bool) :
    f.taken rdreq ++ (f.clock wrreq rdreq).words = f.words ++ f.accepted wrreq := by
  cases rdreq
  · simp [taken, clock]
  · simp only [taken, clock, if_true]
    rw [← List.append_assoc, List.take_append_drop]

/-- What all words have in common is kept as long as those that come in have it. -/
theorem forall_clock {P : α → Prop} {f : Fifo α depth} {wrreq : Option α}
    (hwords : ∀ w ∈ f.words, P w) (hnew : ∀ w, wrreq = some w → P w) (rdreq : Bool) :
    ∀ w ∈ (f.clock wrreq rdreq).words, P w := by
  intro w hw
  rw [clock, List.mem_append] at hw
  cases hw with
  | inl hold =>
      split at hold
      · exact hwords w (List.mem_of_mem_drop hold)
      · exact hwords w hold
  | inr hin =>
      rw [accepted] at hin
      split at hin
      · exact hnew w (Option.mem_toList.mp hin)
      · exact absurd hin List.not_mem_nil

theorem clock_words_idle (f : Fifo α depth) (wrreq : Option α) :
    (f.clock wrreq false).words = f.words ++ f.accepted wrreq := rfl

@[simp] theorem accepted_none (f : Fifo α depth) : f.accepted none = [] := by
  simp [accepted]

@[simp] theorem clock_idle (f : Fifo α depth) : f.clock none false = f := by
  cases f; simp [clock, accepted]

theorem isEmpty_eq_false {f : Fifo α depth} : f.isEmpty = false ↔ f.words ≠ [] := by
  cases h : f.words <;> simp [isEmpty, h]

theorem clock_words_ne_nil {f : Fifo α depth} (h : f.words ≠ []) (wrreq : Option α) :
    (f.clock wrreq false).words ≠ [] := by
  simp [clock, h]

end Fifo

/-- A word is seen by the cycle behind its write. A memory with an output register of its own
shows it, and the end of emptiness, one cycle later; that cycle is not modelled. -/
structure RegFifo (α : Type u) (depth : Nat) extends Fifo α depth where
  q : α

namespace RegFifo

def clock (f : RegFifo α depth) (wrreq : Option α) (rdreq : Bool) : RegFifo α depth where
  toFifo := f.toFifo.clock wrreq rdreq
  q := if rdreq then f.words.headD f.q else f.q

theorem clock_q (f : RegFifo α depth) (wrreq : Option α) (rdreq : Bool) :
    (f.clock wrreq rdreq).q = (f.taken rdreq).getLastD f.q := by
  cases rdreq
  · rfl
  · cases h : f.words <;> simp [clock, Fifo.taken, h]

theorem clock_q_of_forall {P : α → Prop} {f : RegFifo α depth} (hwords : ∀ w ∈ f.words, P w)
    (hq : P f.q) (wrreq : Option α) (rdreq : Bool) : P (f.clock wrreq rdreq).q := by
  rw [clock]
  cases rdreq with
  | false => exact hq
  | true =>
      cases h : f.words with
      | nil => exact hq
      | cons w ws => exact hwords w (h ▸ List.mem_cons_self)

end RegFifo

end Clocked
