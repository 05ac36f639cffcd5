import CncCard.EtherCat.Consistency

/-!
The loop of `main`: each pass moves the process data in `free_run` and then lets
`al_event` look at the state machine. The accesses of a pass are listed beside the
functions that make them.
-/

namespace CncCard.EtherCat
open Clocked

def alControlEvent : BitVec 8 := 0x01

/-- The command words of `spi_read_8` and `spi_write_8`. -/
def readCommand (address : BitVec 16) : BitVec 16 := address <<< 3 ||| 0x02
def writeCommand (address : BitVec 16) : BitVec 16 := address <<< 3 ||| 0x04

/-- The address that the controller takes from a command word. -/
def escAddress (command : BitVec 16) : BitVec 13 := (command >>> 3).setWidth 13

/-- What one pass of the loop reads. -/
structure Pass where
  /-- Register 0x0220, read before `free_run` and again in `al_event`. -/
  freeRunEvent : BitVec 32
  alEvent : BitVec 32
  ram : BitVec 13 → BitVec 8
  call : Call

/-- Both loops over process data, with `n` bytes to go: the index and the address. -/
def pdLoop : Nat → BitVec 16 → BitVec 16 → List (BitVec 16 × BitVec 16)
  | 0, _, _ => []
  | n + 1, i, address => (i, address) :: pdLoop n (i + 1#16) (address + 1#16)

namespace Slave

def outputLoop (s : Slave) : List (BitVec 16 × BitVec 16) :=
  pdLoop s.nPdOutputSize.toNat 0#16 s.nEscAddrOutputData

def inputLoop (s : Slave) : List (BitVec 16 × BitVec 16) :=
  pdLoop s.nPdInputSize.toNat 0#16 s.nEscAddrInputData

/-- A byte written to the controller; only the registers that the slave keeps see it. -/
def spiWrite8 (s : Slave) (address : BitVec 16) (data : BitVec 8) : Slave :=
  let a := escAddress (writeCommand address)
  let low (word : BitVec 16) : BitVec 16 := word.extractLsb' 8 8 ++ data
  let high (word : BitVec 16) : BitVec 16 := data ++ word.extractLsb' 0 8
  { s with
    alStatus :=
      if a = 0x0130 then low s.alStatus
      else if a = 0x0131 then high s.alStatus
      else s.alStatus
    alStatusCode :=
      if a = 0x0134 then low s.alStatusCode
      else if a = 0x0135 then high s.alStatusCode
      else s.alStatusCode
    alEventMask :=
      if a = 0x0204 then low s.alEventMask
      else if a = 0x0205 then high s.alEventMask
      else s.alEventMask
    pdictl := fun channel =>
      if a = 0x0807 + 8 * BitVec.ofNat 13 channel then data else s.pdictl channel }

def writeinputdata (s : Slave) : Slave :=
  s.inputLoop.foldl (fun s x => s.spiWrite8 x.2
    (if x.1 = 0 then 0x11
      else if x.1 = 1 then 0x22
      else if x.1 = 2 then 0x33
      else if x.1 = 3 then 0x44
      else 0)) s

def alEvent (s : Slave) (i : Pass) : Slave :=
  if i.alEvent.setWidth 8 &&& alControlEvent ≠ 0 then s.call i.call else s

end Slave

/-- The slave with the output bytes and the port of the interpolator. A store past the
64 bytes of `aPdOutputData` goes to memory that is not modelled. -/
structure Program where
  slave : Slave
  aPdOutputData : BitVec 16 → BitVec 8
  pioDda : BitVec 32

namespace Program

def readoutputdata (p : Program) (ram : BitVec 13 → BitVec 8) : BitVec 32 × Program :=
  let data := p.slave.outputLoop.foldl
    (fun data x => Function.update data x.1 (ram (escAddress (readCommand x.2))))
    p.aPdOutputData
  ((data 0).setWidth 32 + (data 1).setWidth 32 <<< 8 + (data 2).setWidth 32 <<< 16 +
      (data 3).setWidth 32 <<< 24,
    { p with aPdOutputData := data })

def freeRun (p : Program) (i : Pass) : Program :=
  if (i.freeRunEvent >>> 8).setWidth 8 &&& (processOutputEvent >>> 8).setWidth 8 ≠ 0 then
    let r := if p.slave.bEcatOutputUpdateRunning then p.readoutputdata i.ram else (0, p)
    { r.2 with slave := r.2.slave.writeinputdata, pioDda := r.1 }
  else p

def mainLoop (p : Program) (i : Pass) : Program :=
  let p := if p.slave.bEscIntEnabled then p else p.freeRun i
  { p with slave := p.slave.alEvent i }

/-- The program when it enters the loop; `main` has written 1 to the port. -/
def start (maxsyncman : BitVec 8) (pdictl : Fin 4 → BitVec 8) : Program where
  slave := EtherCat.start maxsyncman pdictl
  aPdOutputData := fun _ => 0
  pioDda := 1

end Program

/-- Process data that reach the registers change nothing that the program keeps. -/
theorem Slave.writeinputdata_frame (s : Slave) :
    ∃ status code events ctl, s.writeinputdata =
      { s with
        alStatus := status, alStatusCode := code, alEventMask := events, pdictl := ctl } := by
  unfold Slave.writeinputdata
  generalize s.inputLoop = l
  induction l generalizing s with
  | nil => exact ⟨_, _, _, _, rfl⟩
  | cons x l ih =>
      obtain ⟨status, code, events, ctl, hrest⟩ := ih (s.spiWrite8 x.2 _)
      exact ⟨status, code, events, ctl, hrest⟩

/-- The event that lets `free_run` move the process data. -/
def Pass.moves (i : Pass) : Bool :=
  (i.freeRunEvent >>> 8).setWidth 8 &&& (processOutputEvent >>> 8).setWidth 8 != 0

/-- The event that lets `al_event` call the state machine. -/
def Pass.asks (i : Pass) : Bool := i.alEvent.setWidth 8 &&& alControlEvent != 0

theorem Program.freeRun_slave (p : Program) (i : Pass) :
    ∃ status code events ctl, (p.freeRun i).slave =
      { p.slave with
        alStatus := status, alStatusCode := code, alEventMask := events, pdictl := ctl } := by
  unfold Program.freeRun
  split
  · cases p.slave.bEcatOutputUpdateRunning <;> exact p.slave.writeinputdata_frame
  · exact ⟨_, _, _, _, rfl⟩

theorem Program.freeRun_pioDda (p : Program) (i : Pass) :
    (p.freeRun i).pioDda =
      if i.moves then
        if p.slave.bEcatOutputUpdateRunning then (p.readoutputdata i.ram).1 else 0
      else p.pioDda := by
  simp only [Program.freeRun, Pass.moves, bne_iff_ne]
  split
  · split <;> rfl
  · rfl

def Al.pass (a : Al) (i : Pass) : Al := if i.asks then a.step i.call.alcontrol else a

/-- The program follows the state machine, with the interrupt off. -/
structure Follows (p : Program) (a : Al) : Prop where
  consistent : Consistent p.slave a
  polled : p.slave.bEscIntEnabled = false

theorem handlers_polled {s : Slave} (h : s.bEscIntEnabled = false) (r : EscRegs)
    (x y : AlState) : (handlers r x y s).bEscIntEnabled = false := by
  cases x <;> cases y <;> simp [handlers, h]

theorem Follows.freeRun {p : Program} {a : Al} (h : Follows p a) (i : Pass) :
    Follows (p.freeRun i) a := by
  obtain ⟨_, _, _, _, hslave⟩ := p.freeRun_slave i
  have hc := h.consistent
  refine ⟨?_, ?_⟩
  · rw [hslave]
    exact ⟨⟨hc.shows.status, hc.shows.code⟩, hc.mbxrunning, hc.outputUpdate, hc.pdoinrun⟩
  · rw [hslave]
    exact h.polled

theorem Follows.mainLoop_slave {p : Program} {a : Al} (h : Follows p a) (i : Pass) :
    (p.mainLoop i).slave =
      if i.asks then (p.freeRun i).slave.call i.call else (p.freeRun i).slave := by
  simp only [Program.mainLoop, h.polled, Bool.false_eq_true, if_false, Slave.alEvent, Pass.asks,
    bne_iff_ne]

theorem Follows.mainLoop {p : Program} {a : Al} (h : Follows p a) (i : Pass) :
    Follows (p.mainLoop i) (a.pass i) := by
  have hfree := h.freeRun i
  cases hasks : i.asks with
  | false =>
      have hslave : (p.mainLoop i).slave = (p.freeRun i).slave := by
        rw [h.mainLoop_slave, hasks, if_neg Bool.false_ne_true]
      rw [Al.pass, hasks, if_neg Bool.false_ne_true]
      exact ⟨hslave ▸ hfree.consistent, hslave ▸ hfree.polled⟩
  | true =>
      have hslave : (p.mainLoop i).slave = (p.freeRun i).slave.call i.call := by
        rw [h.mainLoop_slave, hasks, if_pos rfl]
      rw [Al.pass, hasks, if_pos rfl]
      refine ⟨hslave ▸ hfree.consistent.call i.call, ?_⟩
      rw [hslave]
      cases hfree.consistent.shows.call_cases i.call with
      | inl hstay =>
          obtain ⟨-, _, _, _, _, hcall⟩ := hstay
          rw [hcall]
          exact hfree.polled
      | inr hmove =>
          obtain ⟨y, -, -, -, shown, _, _, _, _, hcall⟩ := hmove
          rw [hcall]
          exact handlers_polled (s := { (p.freeRun i).slave with nAlStatus := shown })
            hfree.polled _ _ _

section Run

variable (maxsyncman : BitVec 8) (pdictl : Fin 4 → BitVec 8) (passes : Nat → Pass)

/-- The program after `n` passes. -/
def loop : Nat → Program := trace Program.mainLoop (Program.start maxsyncman pdictl) passes

def alLoop : Nat → Al := trace Al.pass ⟨.init, false⟩ passes

theorem loop_succ (n : Nat) :
    loop maxsyncman pdictl passes (n + 1) =
      (loop maxsyncman pdictl passes n).mainLoop (passes n) := rfl

theorem alLoop_succ (n : Nat) : alLoop passes (n + 1) = (alLoop passes n).pass (passes n) := rfl

theorem loop_follows (n : Nat) :
    Follows (loop maxsyncman pdictl passes n) (alLoop passes n) :=
  trace_simulates (R := Follows) ⟨consistent_start maxsyncman pdictl, rfl⟩
    (fun _ _ i h => h.mainLoop i) n

end Run

/-- The slave is brought up to OP, moves its data in one pass, which also takes it back to
SAFEOP, and is left alone. -/
def upAndBack (r : EscRegs) (n : Nat) : Pass where
  freeRunEvent := if n = 3 then 0x0400 else 0
  alEvent := if n < 4 then 1 else 0
  ram := fun _ => 1
  call := asked r [2, 4, 8, 4] n

end CncCard.EtherCat
