import CncCard.Clocked.Level
import CncCard.Clocked.Log
import CncCard.Clocked.Trace
import Mathlib.Data.BitVec

/-!
The mover `test_fifo` between the output queue of the PCIe core and `fifo31`. Its two requests
are one cycle behind its state, and both levels are one cycle behind the requests, so it stops
short of either end.
-/

namespace CncCard
open Clocked

inductive TestState where
  | idle | rdwrst | waitst1 | waitst2 | waitst3 | waitst4 | waitst5 | waitst6
  deriving DecidableEq

structure TestFifoInput where
  /-- The reset, active low. -/
  rst : Bool
  rdempty : Bool
  rddw : BitVec 9
  dw : BitVec 11

structure TestFifo where
  preState : TestState
  fifo31Inwr : Bool
  fiford : Bool

def TestState.nxtState (i : TestFifoInput) : TestState → TestState
  | .idle => if i.rdempty = false ∧ i.dw ≤ 0b011111010000 then .rdwrst else .idle
  | .rdwrst => if i.rddw ≤ 0b000000100 ∨ i.dw > 0b011111010000 then .waitst1 else .rdwrst
  | .waitst1 => .waitst2
  | .waitst2 => .waitst3
  | .waitst3 => .waitst4
  | .waitst4 => .waitst5
  | .waitst5 => .waitst6
  | .waitst6 => .idle

/-- The cycles that a state takes to the one that reads, if nothing stops it. -/
def TestState.wait : TestState → Nat
  | .rdwrst => 0
  | .idle => 1
  | .waitst6 => 2
  | .waitst5 => 3
  | .waitst4 => 4
  | .waitst3 => 5
  | .waitst2 => 6
  | .waitst1 => 7

def TestFifo.reset : TestFifo := ⟨.idle, false, false⟩

def testFifo (s : TestFifo) (i : TestFifoInput) : TestFifo :=
  if !i.rst then TestFifo.reset
  else
    { preState := s.preState.nxtState i
      fifo31Inwr := s.preState == .rdwrst
      fiford := s.preState == .rdwrst }

structure MoverInput where
  rst : Bool
  /-- The word that comes in from the PCIe core. -/
  arrival : Option (BitVec 64)
  rdreq : Bool

/-- `source` is the reading side of `fifo3`, which shows its oldest word. -/
structure Mover where
  testFifo : TestFifo
  source : Fifo (BitVec 64) 256
  fifo31 : RegFifo (BitVec 64) 2048

namespace Mover

def rddw (s : Mover) : BitVec 9 := BitVec.ofNat 9 s.source.words.length

/-- The level has no bit for a full queue, which shows as an empty one. -/
def dw (s : Mover) : BitVec 11 := BitVec.ofNat 11 s.fifo31.words.length

def wrreq (s : Mover) : Option (BitVec 64) :=
  if s.testFifo.fifo31Inwr then some (s.source.words.headD 0) else none

def clock (s : Mover) (i : MoverInput) : Mover where
  testFifo := CncCard.testFifo s.testFifo ⟨i.rst, s.source.isEmpty, s.rddw, s.dw⟩
  source := s.source.clock i.arrival s.testFifo.fiford
  fifo31 := s.fifo31.clock s.wrreq i.rdreq

/-- What is in the queues when the reset is released. Only `test_fifo` writes to `fifo31`, so
its level is one that `dw` shows. -/
structure Start where
  source : Fifo (BitVec 64) 256
  fifo31 : RegFifo (BitVec 64) 2048
  shown : fifo31.words.length < 2048

def Start.mover (m : Start) : Mover := ⟨.reset, m.source, m.fifo31⟩

/-- What the two levels are in each state, with and without the requests. They are off in the
waiting states behind the first one, whatever the levels are. -/
def Room (reading : Bool) (n m : Nat) : TestState → Prop
  | .rdwrst => if reading then 4 ≤ n ∧ m ≤ 2001 else 1 ≤ n ∧ m ≤ 2000
  | .waitst1 => reading = true ∧ 1 ≤ n ∧ m ≤ 2002
  | _ => reading = false

structure Inv (s : Mover) : Prop where
  together : s.testFifo.fiford = s.testFifo.fifo31Inwr
  shown : s.fifo31.words.length < 2048
  room : Room s.testFifo.fiford s.source.words.length s.fifo31.words.length s.testFifo.preState

theorem rddw_le_iff (s : Mover) : s.rddw ≤ 0b000000100 ↔ s.source.words.length ≤ 4 := by
  have hbound := s.source.bounded
  rw [BitVec.le_def, rddw, BitVec.toNat_ofNat, Nat.mod_eq_of_lt (by omega)]
  exact Iff.rfl

theorem dw_le_iff {s : Mover} (h : s.fifo31.words.length < 2048) :
    s.dw ≤ 0b011111010000 ↔ s.fifo31.words.length ≤ 2000 := by
  rw [BitVec.le_def, dw, BitVec.toNat_ofNat, Nat.mod_eq_of_lt h]
  exact Iff.rfl

theorem Inv.read {s : Mover} (h : Inv s) (hread : s.testFifo.fiford = true) :
    s.source.words ≠ [] ∧ s.fifo31.words.length ≤ 2002 := by
  have hroom := h.room
  rw [hread] at hroom
  rw [← List.length_pos_iff]
  cases hstate : s.testFifo.preState <;> simp [hstate, Room] at hroom <;> omega

theorem length_source (s : Mover) (i : MoverInput) :
    s.source.words.length - s.testFifo.fiford.toNat ≤ (s.clock i).source.words.length := by
  rw [clock, Fifo.length_clock]
  exact Nat.le_add_right _ _

theorem length_fifo31 (s : Mover) (i : MoverInput) :
    (s.clock i).fifo31.words.length ≤
      s.fifo31.words.length + s.testFifo.fifo31Inwr.toNat := by
  have hwritten : s.wrreq.toList.length = s.testFifo.fifo31Inwr.toNat := by
    rw [wrreq]
    cases s.testFifo.fifo31Inwr <;> rfl
  rw [← hwritten]
  exact Fifo.length_clock_le _ _ _

/-- The stop at four words leaves one for each request that is still on its way, and the stop
above 2000 words leaves room for them. -/
theorem Inv.clock_room {s : Mover} (h : Inv s) (i : MoverInput) :
    Room (s.clock i).testFifo.fiford (s.clock i).source.words.length
      (s.clock i).fifo31.words.length (s.clock i).testFifo.preState := by
  have hsource := length_source s i
  have hfifo31 := length_fifo31 s i
  have hroom := h.room
  rw [← h.together] at hfifo31
  generalize (s.clock i).source.words.length = n at *
  generalize (s.clock i).fifo31.words.length = m at *
  rw [clock, CncCard.testFifo]
  cases i.rst with
  | false => rfl
  | true =>
      change Room (s.testFifo.preState == .rdwrst) n m (s.testFifo.preState.nxtState _)
      cases hstate : s.testFifo.preState with
      | idle =>
          rw [hstate] at hroom
          rw [show s.testFifo.fiford = false from hroom, Bool.toNat_false] at hsource hfifo31
          rw [TestState.nxtState]
          split
          · next hgo =>
              have hsome := List.length_pos_iff.mpr (Fifo.isEmpty_eq_false.mp hgo.1)
              have hlow := (dw_le_iff h.shown).mp hgo.2
              exact ⟨by omega, by omega⟩
          · rfl
      | rdwrst =>
          rw [hstate, Room] at hroom
          have hreads := Bool.toNat_le s.testFifo.fiford
          rw [TestState.nxtState]
          split
          · refine ⟨rfl, ?_⟩
            cases hread : s.testFifo.fiford <;> simp [hread] at hroom hsource hfifo31 <;> omega
          · next hstay =>
              obtain ⟨hmany, hlow⟩ := not_or.mp hstay
              rw [rddw_le_iff] at hmany
              rw [gt_iff_lt, BitVec.not_lt, dw_le_iff h.shown] at hlow
              exact ⟨by omega, by omega⟩
      | waitst1 | waitst2 | waitst3 | waitst4 | waitst5 | waitst6 => rfl

theorem Inv.clock {s : Mover} (h : Inv s) (i : MoverInput) : Inv (s.clock i) where
  together := by
    rw [Mover.clock, CncCard.testFifo]
    cases i.rst <;> rfl
  shown := by
    have hfifo31 := length_fifo31 s i
    have hshown := h.shown
    cases hread : s.testFifo.fiford with
    | false =>
        rw [← h.together, hread, Bool.toNat_false] at hfifo31
        omega
    | true =>
        have hroom := (h.read hread).2
        rw [← h.together, hread, Bool.toNat_true] at hfifo31
        omega
  room := h.clock_room i

theorem Start.inv (m : Start) : Inv m.mover := ⟨rfl, m.shown, rfl⟩

/-- The word that a read takes is the one that the write in the same cycle adds. -/
theorem Inv.moved {s : Mover} (h : Inv s) :
    s.source.taken s.testFifo.fiford = s.fifo31.accepted s.wrreq := by
  rw [Fifo.accepted_of_lt h.shown, wrreq, ← h.together]
  cases hread : s.testFifo.fiford with
  | false => rfl
  | true =>
      obtain ⟨w, ws, hwords⟩ := List.exists_cons_of_ne_nil (h.read hread).1
      rw [Fifo.taken, hwords]
      rfl

/-- Without a read the word goes on waiting, and the next read comes nearer. -/
theorem Inv.waits {s : Mover} (h : Inv s) (hread : s.testFifo.fiford = false)
    (hsome : s.source.words ≠ []) (hlow : s.fifo31.words.length ≤ 2000) {i : MoverInput}
    (hrst : i.rst = true) : (s.clock i).source.words ≠ [] ∧
      (s.clock i).fifo31.words.length ≤ 2000 ∧
      ((s.clock i).testFifo.fiford = true ∨
        (s.clock i).testFifo.preState.wait < s.testFifo.preState.wait) := by
  have hsource := length_source s i
  have hfifo31 := length_fifo31 s i
  rw [hread, Bool.toNat_false] at hsource
  rw [← h.together, hread, Bool.toNat_false] at hfifo31
  have hpos := List.length_pos_iff.mpr hsome
  refine ⟨List.length_pos_iff.mp (by omega), by omega, ?_⟩
  rw [Mover.clock, CncCard.testFifo, hrst]
  change (s.testFifo.preState == .rdwrst) = true ∨ (s.testFifo.preState.nxtState _).wait < _
  cases hstate : s.testFifo.preState with
  | rdwrst => exact .inl rfl
  | idle =>
      have hgo : s.source.isEmpty = false ∧ s.dw ≤ 0b011111010000 :=
        ⟨Fifo.isEmpty_eq_false.mpr hsome, (dw_le_iff h.shown).mpr hlow⟩
      rw [TestState.nxtState, if_pos hgo]
      exact .inr Nat.zero_lt_one
  | _ => exact .inr (Nat.lt_succ_self _)

section Run

variable (m : Start) (inp : Nat → MoverInput)

def run : Nat → Mover := trace clock m.mover inp

theorem run_inv (t : Nat) : Inv (run m inp t) :=
  trace_invariant m.inv (fun _ i h => h.clock i) t

def moved : Nat → List (BitVec 64) :=
  log fun t => (run m inp t).source.taken (run m inp t).testFifo.fiford

def arrived : Nat → List (BitVec 64) := log fun t => (run m inp t).source.accepted (inp t).arrival

def drained : Nat → List (BitVec 64) := log fun t => (run m inp t).fifo31.taken (inp t).rdreq

/-- The two requests are the same, neither is made in vain, and what comes out of the one
queue in the order of its arrival is what goes into the other. -/
structure Moves : Prop where
  together : ∀ t, (run m inp t).testFifo.fiford = (run m inp t).testFifo.fifo31Inwr
  read : ∀ t, (run m inp t).testFifo.fiford = true → (run m inp t).source.words ≠ []
  write : ∀ t, (run m inp t).testFifo.fifo31Inwr = true →
    (run m inp t).fifo31.words.length < 2048
  left : ∀ t, moved m inp t ++ (run m inp t).source.words = m.source.words ++ arrived m inp t
  reached : ∀ t, drained m inp t ++ (run m inp t).fifo31.words =
    m.fifo31.words ++ moved m inp t

theorem run_moves : Moves m inp where
  together t := (run_inv m inp t).together
  read t hread := ((run_inv m inp t).read hread).1
  write t _ := (run_inv m inp t).shown
  left t := by
    induction t with
    | zero => exact (List.append_nil _).symm
    | succ t ih =>
        rw [arrived, log_succ, ← arrived, ← List.append_assoc, ← ih, List.append_assoc,
          ← Fifo.taken_append_clock, ← List.append_assoc]
        rfl
  reached t := by
    induction t with
    | zero => exact (List.append_nil _).symm
    | succ t ih =>
        rw [moved, log_succ, ← moved, ← List.append_assoc, ← ih, List.append_assoc,
          (run_inv m inp t).moved, ← Fifo.taken_append_clock, ← List.append_assoc]
        rfl

/-- A word that waits while `fifo31` has room is read. -/
theorem exists_read (hrst : ∀ t, (inp t).rst = true) {t : Nat}
    (hsome : (run m inp t).source.words ≠ [])
    (hlow : (run m inp t).fifo31.words.length ≤ 2000) :
    ∃ u, t ≤ u ∧ (run m inp u).testFifo.fiford = true := by
  induction hwait : (run m inp t).testFifo.preState.wait using Nat.strong_induction_on
    generalizing t with
  | _ n ih =>
      cases hread : (run m inp t).testFifo.fiford with
      | true => exact ⟨t, Nat.le_refl t, hread⟩
      | false =>
          obtain ⟨hsome', hlow', hnext⟩ := (run_inv m inp t).waits hread hsome hlow (hrst t)
          rcases hnext with hnext | hnext
          · exact ⟨t + 1, Nat.le_succ t, hnext⟩
          · obtain ⟨u, hu, hfound⟩ := ih _ (hwait ▸ hnext) (t := t + 1) hsome' hlow' rfl
            exact ⟨u, Nat.le_of_succ_le hu, hfound⟩

/-- While the reset is released and `fifo31` comes to have room again and again, every word
that arrives is moved. -/
theorem exists_moved (hrst : ∀ t, (inp t).rst = true)
    (hroom : ∀ t, ∃ u, t ≤ u ∧ (run m inp u).fifo31.words.length ≤ 2000) (t : Nat) :
    ∃ u, t ≤ u ∧ m.source.words ++ arrived m inp t <+: moved m inp u := by
  have hmoves := run_moves m inp
  have hbegins {u : Nat} (hu : t ≤ u) :
      m.source.words ++ arrived m inp t <+: m.source.words ++ arrived m inp u :=
    (List.prefix_append_right_inj _).mpr (log_begins _ hu)
  suffices hall : ∀ d u, t ≤ u →
      (m.source.words ++ arrived m inp t).length ≤ (moved m inp u).length + d →
      ∃ v, t ≤ v ∧ m.source.words ++ arrived m inp t <+: moved m inp v from
    hall _ t (Nat.le_refl t) (Nat.le_add_left _ _)
  intro d
  induction d with
  | zero =>
      intro u hu hlength
      have hmoved : moved m inp u <+: m.source.words ++ arrived m inp u := ⟨_, hmoves.left u⟩
      exact ⟨u, hu, List.prefix_of_prefix_length_le (hbegins hu) hmoved hlength⟩
  | succ d ih =>
      intro u hu hlength
      obtain ⟨v, huv, hlow⟩ := hroom u
      by_cases hsome : (run m inp v).source.words = []
      · refine ⟨v, by omega, ?_⟩
        have hleft := hmoves.left v
        rw [hsome, List.append_nil] at hleft
        rw [hleft]
        exact hbegins (by omega)
      · obtain ⟨w, hvw, hread⟩ := exists_read m inp hrst hsome hlow
        have hgrown : (moved m inp (w + 1)).length = (moved m inp w).length + 1 := by
          obtain ⟨x, xs, hwords⟩ := List.exists_cons_of_ne_nil (hmoves.read w hread)
          rw [moved, log_succ, List.length_append, Fifo.taken, hread, hwords]
          rfl
        have hkept : (moved m inp u).length ≤ (moved m inp w).length :=
          (log_begins _ (by omega : u ≤ w)).length_le
        exact ih (w + 1) (by omega) (by omega)

end Run

end Mover

end CncCard
