import CncCard.EtherCat.Command
import CncCard.EtherCat.Port

/-!
What the slave is for: a device that takes the first four bytes of the frame for a command
of the interpolator while it is in OP, and shows none otherwise. The program refines it, and
so the word at the port is decided by what the master has asked for and sent.
-/

namespace CncCard.EtherCat
open Clocked

/-- The device keeps the state that the master sees, the areas of the process data, the last
byte received at each place of a frame, and the word of the interpolator. -/
structure Device where
  al : Al
  area : SyncMan × SyncMan
  held : Nat → BitVec 8
  port : BitVec 32

namespace Device

def start : Device := ⟨⟨.init, false⟩, (⟨0, 0⟩, ⟨0, 0⟩), fun _ => 0, 1⟩

/-- A frame of the output data that has a byte `k` is taken over. -/
def takes (d : Device) (i : Pass) (k : Nat) : Bool :=
  i.moves && decide (d.al.state = .op) && decide (k < d.area.1.smLength.toNat)

/-- Byte `k` of the output area. -/
def frame (d : Device) (i : Pass) (k : Nat) : BitVec 8 :=
  i.ram ((d.area.1.smPhysicalAddr + BitVec.ofNat 16 k).setWidth 13)

def receive (d : Device) (i : Pass) (k : Nat) : BitVec 8 :=
  if d.takes i k then d.frame i k else d.held k

/-- The step from PREOP to SAFEOP opens the areas that the master has set up. -/
def opens (d : Device) (i : Pass) : Bool :=
  decide (d.al.state = .preop) && decide ((d.al.pass i).state = .safeop)

def pass (d : Device) (i : Pass) : Device where
  al := d.al.pass i
  area := if d.opens i then i.call.regs.area else d.area
  held := d.receive i
  port :=
    if i.moves then
      if d.al.state = .op then littleEndian (d.receive i) else 0
    else d.port

/-- The device after `n` passes. -/
def run (passes : Nat → Pass) : Nat → Device := trace pass start passes

end Device

/-- The program does what the device does. -/
structure Refines (p : Program) (d : Device) : Prop where
  follows : Follows p d.al
  area : p.slave.area = d.area
  data : ∀ k < 2 ^ 16, p.aPdOutputData (BitVec.ofNat 16 k) = d.held k
  port : p.pioDda = d.port

section Step

variable {p : Program} {d : Device}

theorem Refines.reads_eq (h : Refines p d) (i : Pass) :
    p.reads i = (i.moves && decide (d.al.state = .op)) := by
  rw [Bool.eq_iff_iff, h.follows.reads_iff, h.follows.consistent.shows.in_iff, Bool.and_eq_true,
    decide_eq_true_iff]

theorem Refines.size (h : Refines p d) : p.slave.nPdOutputSize = d.area.1.smLength :=
  congrArg (fun area => area.1.smLength) h.area

theorem Refines.takes_eq (h : Refines p d) (i : Pass) (k : Nat) :
    p.takes i k = d.takes i k := by
  rw [Program.takes, h.reads_eq, h.size]
  rfl

theorem Refines.frame_eq (h : Refines p d) (i : Pass) (k : Nat) :
    p.frame i k = d.frame i k := by
  have haddr : p.slave.nEscAddrOutputData = d.area.1.smPhysicalAddr :=
    congrArg (fun area => area.1.smPhysicalAddr) h.area
  rw [Program.frame, haddr, Device.frame]
  refine congrArg i.ram (BitVec.eq_of_toNat_eq ?_)
  rw [readCommand_address, BitVec.toNat_setWidth]

theorem Refines.receive (h : Refines p d) (i : Pass) {k : Nat} (hk : k < 2 ^ 16) :
    (p.mainLoop i).aPdOutputData (BitVec.ofNat 16 k) = d.receive i k := by
  rw [Device.receive, ← h.takes_eq, ← h.frame_eq, ← h.data k hk, Program.takes,
    Program.mainLoop_data]
  cases p.reads i with
  | false => rfl
  | true =>
      rw [if_pos rfl, Program.readoutputdata_byte p i hk]
      simp only [Bool.true_and, decide_eq_true_eq]

/-- The word that a pass of the program leaves at the port. -/
theorem Refines.mainLoop_port (h : Refines p d) (i : Pass) :
    (p.mainLoop i).pioDda = (d.pass i).port := by
  rw [Device.pass]
  by_cases hop : d.al.state = .op
  · cases hmoves : i.moves with
    | false =>
        change (if p.slave.bEscIntEnabled then p else p.freeRun i).pioDda = d.port
        rw [h.follows.polled, if_neg Bool.false_ne_true, Program.freeRun_pioDda, hmoves, h.port]
        rfl
    | true =>
        have hreads : p.reads i = true := by
          rw [h.reads_eq, hmoves, hop]
          rfl
        have hdata : (p.readoutputdata i.ram).2.aPdOutputData =
            (p.mainLoop i).aPdOutputData := by
          rw [Program.mainLoop_data, hreads, if_pos rfl]
        rw [Program.mainLoop_port hreads, Program.readoutputdata_word, if_pos rfl, if_pos hop,
          hdata, littleEndian_eq_iff]
        exact fun k hk => h.receive i (by omega)
  · have hout : ¬ p.slave.In .op := fun hin =>
      hop (h.follows.consistent.shows.in_iff.mp hin)
    rw [h.follows.port_step hout, h.port, if_neg hop]

end Step

section Run

variable (maxsyncman : BitVec 8) (pdictl : Fin 4 → BitVec 8) (passes : Nat → Pass)

theorem Device.run_succ (n : Nat) :
    Device.run passes (n + 1) = (Device.run passes n).pass (passes n) := rfl

theorem Device.run_al (n : Nat) : (Device.run passes n).al = alLoop passes n := by
  have hstep (d : Device) (i : Pass) : (d.pass i).al = d.al.pass i := rfl
  exact trace_part (p := Device.al) hstep n

theorem opens_iff (n : Nat) :
    (Device.run passes n).opens (passes n) = true ↔ Enters maxsyncman pdictl passes n := by
  rw [enters_iff, Device.opens, Device.run_al, Bool.and_eq_true, decide_eq_true_iff,
    decide_eq_true_iff, alLoop_succ]

/-- The program refines the device, pass by pass. -/
theorem loop_refines (n : Nat) :
    Refines (loop maxsyncman pdictl passes n) (Device.run passes n) := by
  induction n with
  | zero => exact ⟨loop_follows maxsyncman pdictl passes 0, rfl, fun _ _ => rfl, rfl⟩
  | succ n ih =>
      refine ⟨?_, ?_, fun k hk => ih.receive (passes n) hk, ih.mainLoop_port (passes n)⟩
      · rw [Device.run_al]
        exact loop_follows maxsyncman pdictl passes (n + 1)
      · rw [loop_area_succ, ih.area, Device.run_succ, Device.pass]
        simp only [opens_iff maxsyncman pdictl passes n]

end Run

/-- What the program has at pass `n` of a run, as the passes before decide it. -/
structure Commanded (passes : Nat → Pass) (n : Nat) (p : Program) : Prop where
  area : Latched (fun m => (Device.run passes m).opens (passes m))
    (fun m => (passes m).call.regs.area) (⟨0, 0⟩, ⟨0, 0⟩) n p.slave.area
  data : ∀ k < maxPdOutputSize, Latched (fun m => (Device.run passes m).takes (passes m) k)
    (fun m => (Device.run passes m).frame (passes m) k) 0 n
    (p.aPdOutputData (BitVec.ofNat 16 k))
  port : Latched (fun m => (passes m).moves)
    (fun m =>
      if (alLoop passes m).state = .op then littleEndian (Device.run passes (m + 1)).held else 0)
    1 n p.pioDda
  inBounds : ∀ x ∈ p.stored (passes n), x.toNat < maxPdOutputSize

/-- No output frame is set up that is longer than the array. -/
def Fitting (passes : Nat → Pass) : Prop :=
  ∀ n, (Device.run passes n).opens (passes n) = true →
    (passes n).call.regs.processDataOut.smLength.toNat ≤ maxPdOutputSize

section History

variable {passes : Nat → Pass}

theorem Device.size_le (h : Fitting passes) (n : Nat) :
    (Device.run passes n).area.1.smLength.toNat ≤ maxPdOutputSize := by
  induction n with
  | zero => exact Nat.zero_le _
  | succ n ih =>
      rw [Device.run_succ, Device.pass]
      dsimp only
      split
      · next hopens => exact h n hopens
      · exact ih

end History

/-- What the interpolator is told is decided by what the master has asked for and sent: in
every run the word at the port is that of the last pass that has moved process data. -/
theorem commanded_of_fitting (maxsyncman : BitVec 8) (pdictl : Fin 4 → BitVec 8)
    (passes : Nat → Pass) (hfit : Fitting passes) (n : Nat) :
    Commanded passes n (loop maxsyncman pdictl passes n) := by
  have h := loop_refines maxsyncman pdictl passes n
  refine ⟨?_, fun k hk => ?_, ?_, ?_⟩
  · rw [h.area]
    exact register_eq (x := fun n => (Device.run passes n).area) (fun m => rfl) n
  · rw [h.data k (Nat.lt_trans hk (by decide))]
    exact register_eq (x := fun n => (Device.run passes n).held k) (fun m => rfl) n
  · rw [h.port]
    have hstep (m : Nat) : (Device.run passes (m + 1)).port =
        if (passes m).moves = true then
          if (alLoop passes m).state = .op then littleEndian (Device.run passes (m + 1)).held
          else 0
        else (Device.run passes m).port := by
      rw [← Device.run_al]
      rfl
    exact register_eq (x := fun n => (Device.run passes n).port) hstep n
  · rw [Program.stored_lt_iff, h.size]
    exact fun _ => Device.size_le hfit n

/-- Behind the one frame of a session. -/
theorem commanded_fourBytes : Commanded fourBytes 5 (loop 8 (fun _ => 0) fourBytes 5) :=
  commanded_of_fitting 8 (fun _ => 0) fourBytes (fun _ _ => show 4 ≤ 0x40 by decide) 5

end CncCard.EtherCat
