import CncCard.Clocked.Edges
import CncCard.Clocked.Fifo
import CncCard.Panel.Debouncer

/-!
The pulse multiplier `puls_hw` of the hand wheel and the queue of periods in front of it, as
`hand_wheel` connects them. A run is a run behind the reset: `rstn` is up and the queue is
not cleared.

The queue shows a word one cycle after the request for it, and `F1` keeps requesting until
`q_sign` is up, which follows the word by two more registers. So `F1` reads more than once
when it is entered from `F0`, and exactly once when it is entered from `F3`, where `q_sign`
is still up.
-/

namespace CncCard
open Clocked

/-- The states `F0` to `F3`; the other codes of the register are not reached. -/
inductive PulsState where
  | f0 | f1 | f2 | f3
  deriving DecidableEq

structure PulsHw where
  currStateF : PulsState
  fTimer : Bool
  c0 : Nat
  c1 : Nat
  sum : Nat
  p : Bool
  qOut : Nat
  qIn : Nat
  qSign : Bool
  /-- `count1` and `flag1`; the other two likewise. -/
  x1 : Debouncer
  x10 : Debouncer
  x100 : Debouncer
  rdreq : Bool
  pulsOut : Bool

structure PulsInput where
  empty : Bool
  q : BitVec 22
  iX1 : Bool
  iX10 : Bool
  iX100 : Bool

namespace PulsHw

def nextStateF (s : PulsHw) (empty : Bool) : PulsState :=
  match s.currStateF with
  | .f0 => if empty then .f0 else .f1
  | .f1 => if s.qSign then .f2 else .f1
  | .f2 => if s.fTimer then .f3 else .f2
  | .f3 => if s.c1 = s.c0 then (if empty then .f0 else .f1) else .f2

/-- The multiplier that the debounced switches select. -/
def multiplier (s : PulsHw) : Nat :=
  if s.x1.flag then 2 else if s.x10.flag then 12 else if s.x100.flag then 32 else 0

/-- The block of the registers that follow the next state. A division by a `c0` of zero is
undefined in the source. -/
def drive (s : PulsHw) (next : PulsState) (q : BitVec 22) : PulsHw :=
  match next with
  | .f0 =>
      { s with
        c1 := 0, fTimer := false, sum := 0, rdreq := false, p := false, qOut := 0, qIn := 0 }
  | .f1 =>
      { s with
        c1 := 0, sum := 0, p := false, qOut := s.qIn, qIn := q.toNat / s.c0, rdreq := true,
        fTimer := false }
  | .f2 =>
      { s with
        qOut := s.qIn
        rdreq := false
        fTimer :=
          if s.sum ≥ s.qOut then false
          else if s.sum ≥ s.qOut / 2 ∧ s.sum < s.qOut then true
          else false
        sum := if s.sum ≥ s.qOut then 0 else (s.sum + s.c0) % 2 ^ 22 }
  | .f3 =>
      { s with
        p := !s.p, c1 := (s.c1 + 1) % 2 ^ 8, rdreq := false, fTimer := false, sum := 0 }

def clock (s : PulsHw) (i : PulsInput) : PulsHw :=
  { s.drive (s.nextStateF i.empty) i.q with
    currStateF := s.nextStateF i.empty
    qSign := decide (s.qIn ≠ 0)
    x1 := s.x1.clock (!i.iX1)
    x10 := s.x10.clock (!i.iX10)
    x100 := s.x100.clock (!i.iX100)
    c0 := s.multiplier
    pulsOut := s.p }

section Next

variable {s : PulsHw} {empty : Bool}

theorem nextStateF_f0 : s.nextStateF empty = .f0 ↔
    empty = true ∧ (s.currStateF = .f0 ∨ s.currStateF = .f3 ∧ s.c1 = s.c0) := by
  unfold nextStateF
  cases s.currStateF <;> grind

theorem nextStateF_f1 : s.nextStateF empty = .f1 ↔
    s.currStateF = .f1 ∧ s.qSign = false ∨
      empty = false ∧ (s.currStateF = .f0 ∨ s.currStateF = .f3 ∧ s.c1 = s.c0) := by
  unfold nextStateF
  cases s.currStateF <;> grind

theorem nextStateF_f2 : s.nextStateF empty = .f2 ↔
    s.currStateF = .f1 ∧ s.qSign = true ∨ s.currStateF = .f2 ∧ s.fTimer = false ∨
      s.currStateF = .f3 ∧ s.c1 ≠ s.c0 := by
  unfold nextStateF
  cases s.currStateF <;> grind

theorem nextStateF_f3 : s.nextStateF empty = .f3 ↔ s.currStateF = .f2 ∧ s.fTimer = true := by
  unfold nextStateF
  cases s.currStateF <;> grind

end Next

end PulsHw

/-- The queue and the multiplier behind it. `queue` has `add_ram_output_register` on, so its
`empty` follows a write by two cycles; here it follows by one. -/
structure HandWheel where
  puls : PulsHw
  queue : RegFifo (BitVec 22) 32

/-- A period to be written, if any, and the switches of the multiplier. -/
structure HandWheelInput where
  wrreq : Option (BitVec 22)
  iX1 : Bool
  iX10 : Bool
  iX100 : Bool

namespace HandWheel

def step (s : HandWheel) (i : HandWheelInput) : HandWheel where
  puls := s.puls.clock ⟨s.queue.isEmpty, s.queue.q, i.iX1, i.iX10, i.iX100⟩
  queue := s.queue.clock i.wrreq s.puls.rdreq

def run (s : HandWheel) (inp : Nat → HandWheelInput) : Nat → HandWheel := trace step s inp

section Run

variable (s : HandWheel) (inp : Nat → HandWheelInput) (t : Nat)

theorem run_succ : run s inp (t + 1) = (run s inp t).step (inp t) := rfl

theorem puls_succ : (run s inp (t + 1)).puls = (run s inp t).puls.clock
    ⟨(run s inp t).queue.isEmpty, (run s inp t).queue.q, (inp t).iX1, (inp t).iX10,
      (inp t).iX100⟩ := rfl

theorem currStateF_succ : (run s inp (t + 1)).puls.currStateF =
    (run s inp t).puls.nextStateF (run s inp t).queue.isEmpty := rfl

theorem qSign_succ :
    (run s inp (t + 1)).puls.qSign = decide ((run s inp t).puls.qIn ≠ 0) := rfl

theorem pulsOut_succ : (run s inp (t + 1)).puls.pulsOut = (run s inp t).puls.p := by
  rw [puls_succ, PulsHw.clock]

theorem words_succ : (run s inp (t + 1)).queue.words =
    (if (run s inp t).puls.rdreq then (run s inp t).queue.words.drop 1
      else (run s inp t).queue.words) ++ (run s inp t).queue.accepted (inp t).wrreq := rfl

end Run

end HandWheel

end CncCard
