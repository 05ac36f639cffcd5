import CncCard.Clocked.Trace
import CncCard.EtherCat.AlState

/-!
Runs of `al_statemachine` from `ECAT_init`. The slave follows a machine that knows the
state and the error indication only, and the flags of the mailbox and of the process
data say which state that is.
-/

namespace CncCard.EtherCat
open Clocked

/-- One request, with the registers that its call reads. -/
structure Call where
  regs : EscRegs
  alcontrol : BitVec 16

def Slave.call (s : Slave) (c : Call) : Slave := s.alStatemachine c.regs c.alcontrol

/-- The state machine of the application layer. -/
structure Al where
  state : AlState
  error : Bool

namespace Al

def answer (a : Al) (alcontrol : BitVec 16) : Verdict :=
  verdict a.state (pending a.error alcontrol) (requested alcontrol)

def step (a : Al) (alcontrol : BitVec 16) : Al :=
  match a.answer alcontrol with
  | .ignored => a
  | .same => ⟨a.state, pending a.error alcontrol⟩
  | .moved y => ⟨y, false⟩
  | .refused _ => ⟨a.state, true⟩

theorem step_rank (a : Al) (alcontrol : BitVec 16) :
    (a.step alcontrol).state.rank ≤ a.state.rank + 1 ∧
      (pending a.error alcontrol = true → (a.step alcontrol).state.rank ≤ a.state.rank) := by
  unfold step
  split
  · exact ⟨Nat.le_succ _, fun _ => Nat.le_refl _⟩
  · exact ⟨Nat.le_succ _, fun _ => Nat.le_refl _⟩
  · next y hanswer =>
      obtain ⟨-, -, hrank, hup⟩ := verdict_moved hanswer
      refine ⟨hrank, fun hpending => Nat.le_of_not_lt fun hlt => ?_⟩
      rw [hup hlt] at hpending
      cases hpending
  · exact ⟨Nat.le_succ _, fun _ => Nat.le_refl _⟩

end Al

/-- The slave is in the state of the machine, and its flags agree. -/
structure Consistent (s : Slave) (a : Al) : Prop where
  shows : s.Shows a.state a.error
  mbxrunning : s.mbxrunning = true ↔ a.state ≠ .init
  outputUpdate : s.bEcatOutputUpdateRunning = true ↔ a.state = .op
  pdoinrun : s.pdoinrun = true → a.state = .safeop ∨ a.state = .op

theorem handlers_flags {s : Slave} {a : Al} (h : Consistent s a) (r : EscRegs) {y : AlState}
    (hne : y ≠ a.state) (hrank : y.rank ≤ a.state.rank + 1) :
    ((handlers r a.state y s).mbxrunning = true ↔ y ≠ .init) ∧
      ((handlers r a.state y s).bEcatOutputUpdateRunning = true ↔ y = .op) ∧
      ((handlers r a.state y s).pdoinrun = true → y = .safeop ∨ y = .op) := by
  obtain ⟨-, hmbx, hout, hpdo⟩ := h
  obtain ⟨x, err⟩ := a
  cases x <;> cases y <;> simp_all [AlState.rank, handlers]

theorem Slave.Shows.call_eq {s : Slave} {a : Al} (h : s.Shows a.state a.error) (c : Call) :
    s.call c =
      Slave.outcome c.regs a.state (pending a.error c.alcontrol) s (a.answer c.alcontrol) :=
  Slave.alStatemachine_eq h c.regs c.alcontrol

/-- A call leaves the handlers' work alone unless it moves to another state. -/
theorem Slave.Shows.call_cases {s : Slave} {a : Al} (h : s.Shows a.state a.error) (c : Call) :
    ((a.step c.alcontrol).state = a.state ∧ ∃ status failed reg code,
      s.call c = { s with
        nAlStatus := status, nAlStatusFailed := failed, alStatus := reg,
        alStatusCode := code }) ∨
    ∃ y, y ≠ a.state ∧ y.rank ≤ a.state.rank + 1 ∧ (a.step c.alcontrol).state = y ∧
      ∃ shown status failed reg code,
        s.call c = { handlers c.regs a.state y { s with nAlStatus := shown } with
          nAlStatus := status, nAlStatusFailed := failed, alStatus := reg,
          alStatusCode := code } := by
  rw [h.call_eq]
  unfold Al.step
  cases hanswer : a.answer c.alcontrol with
  | moved y =>
      obtain ⟨-, hne, hrank, -⟩ := verdict_moved hanswer
      exact .inr ⟨y, hne, hrank, rfl, _, _, _, _, _, rfl⟩
  | _ => exact .inl ⟨rfl, _, _, _, _, rfl⟩

theorem Slave.Shows.withStatus {s : Slave} {x : AlState} {err : Bool} (h : s.Shows x err)
    (err' : Bool) : { s with nAlStatus := x.status err' }.Shows x err' :=
  ⟨rfl, h.code⟩

theorem Consistent.call {s : Slave} {a : Al} (h : Consistent s a) (c : Call) :
    Consistent (s.call c) (a.step c.alcontrol) := by
  rw [h.shows.call_eq]
  unfold Al.step
  cases hanswer : a.answer c.alcontrol with
  | ignored => exact h
  | same => exact ⟨⟨rfl, h.shows.code⟩, h.mbxrunning, h.outputUpdate, h.pdoinrun⟩
  | moved y =>
      obtain ⟨-, hne, hrank, -⟩ := verdict_moved hanswer
      have hcleared : Consistent
          { s with nAlStatus := a.state.status (pending a.error c.alcontrol) }
          ⟨a.state, pending a.error c.alcontrol⟩ :=
        ⟨h.shows.withStatus _, h.mbxrunning, h.outputUpdate, h.pdoinrun⟩
      obtain ⟨hmbx, hout, hpdo⟩ := handlers_flags hcleared c.regs hne hrank
      obtain ⟨-, -, hcode, -⟩ := Slave.handlers_frame c.regs a.state y
        { s with nAlStatus := a.state.status (pending a.error c.alcontrol) }
      exact ⟨⟨rfl, hcode.trans h.shows.code⟩, hmbx, hout, hpdo⟩
  | refused => exact ⟨⟨rfl, h.shows.code⟩, h.mbxrunning, h.outputUpdate, h.pdoinrun⟩

/-- The slave as `ECAT_init` leaves it. -/
def start (maxsyncman : BitVec 8) (pdictl : Fin 4 → BitVec 8) : Slave :=
  (Slave.powerOn pdictl).ecatInit maxsyncman

theorem consistent_start (maxsyncman : BitVec 8) (pdictl : Fin 4 → BitVec 8) :
    Consistent (start maxsyncman pdictl) ⟨.init, false⟩ := by
  refine ⟨⟨rfl, rfl⟩, ?_, ?_, ?_⟩ <;> simp [start, Slave.ecatInit, Slave.powerOn,
    Slave.setAlStatus]

section Run

variable (maxsyncman : BitVec 8) (pdictl : Fin 4 → BitVec 8) (calls : Nat → Call)

/-- The slave when it has answered `n` requests. -/
def run : Nat → Slave := trace Slave.call (start maxsyncman pdictl) calls

/-- The state machine after as many. -/
def alRun : Nat → Al := trace Al.step ⟨.init, false⟩ fun n => (calls n).alcontrol

theorem run_succ (n : Nat) :
    run maxsyncman pdictl calls (n + 1) = (run maxsyncman pdictl calls n).call (calls n) := rfl

theorem alRun_succ (n : Nat) :
    alRun calls (n + 1) = (alRun calls n).step (calls n).alcontrol := rfl

theorem run_consistent (n : Nat) : Consistent (run maxsyncman pdictl calls n) (alRun calls n) :=
  trace_simulates (consistent_start maxsyncman pdictl) (fun _ _ c h => h.call c) n

end Run

/-- The requests of a list, one after the other, with the same registers throughout. -/
def asked (r : EscRegs) (l : List (BitVec 16)) (n : Nat) : Call := ⟨r, l.getD n 0x01⟩

/-- The state that the status byte names. -/
def Slave.In (s : Slave) (x : AlState) : Prop := s.nAlStatus &&& stateMask = x.code

instance (s : Slave) (x : AlState) : Decidable (s.In x) := inferInstanceAs (Decidable (_ = _))

theorem Slave.Shows.in_iff {s : Slave} {x y : AlState} {err : Bool} (h : s.Shows x err) :
    s.In y ↔ x = y := by
  rw [Slave.In, h.status, AlState.status_mask]
  exact ⟨fun hcode => AlState.code_injective hcode, fun heq => heq ▸ rfl⟩

/-- After every call the slave is in one of the four states, one step higher than before
the call at most, and its flags say which; while the error bit is set, a request without
acknowledge does not raise the state. -/
theorem run_states (maxsyncman : BitVec 8) (pdictl : Fin 4 → BitVec 8) (calls : Nat → Call)
    (n : Nat) :
    let s := run maxsyncman pdictl calls n
    let s' := run maxsyncman pdictl calls (n + 1)
    ∃ x y : AlState, s.In x ∧ s'.In y ∧
      (y.rank = x.rank + 1 ∨ y.rank ≤ x.rank) ∧
      (s'.mbxrunning = true ↔ y ≠ .init) ∧
      (s'.bEcatOutputUpdateRunning = true ↔ y = .op) ∧
      (s'.pdoinrun = true → y = .safeop ∨ y = .op) ∧
      (s.nAlStatus &&& stateError ≠ 0 → (calls n).alcontrol &&& stateErrack = 0 →
        y.rank ≤ x.rank) := by
  have hbefore := run_consistent maxsyncman pdictl calls n
  have hafter := run_consistent maxsyncman pdictl calls (n + 1)
  obtain ⟨hrank, hlocked⟩ := (alRun calls n).step_rank (calls n).alcontrol
  rw [← alRun_succ] at hrank hlocked
  refine ⟨_, _, hbefore.shows.in_iff.mpr rfl, hafter.shows.in_iff.mpr rfl, by omega,
    hafter.mbxrunning, hafter.outputUpdate, hafter.pdoinrun, fun herror hack => hlocked ?_⟩
  rw [hbefore.shows.status, AlState.status_error] at herror
  simp only [pending, herror, hack, beq_self_eq_true, Bool.and_true]

end CncCard.EtherCat
