import CncCard.Driver.Ioctl
import CncCard.Pcie.Completion
import CncCard.Pcie.Stream

/-!
The outputs that the commands of `cnc_ioctl` name. Each has a register in `txproc`, but
no block of `txproc` assigns the output from it, so an output stays at the level that it
powers up with. The offsets of the driver are bytes here, and they miss the registers too.
-/

namespace CncCard.Pcie
open Clocked

inductive Output where
  /-- `co1` to `co8`. -/
  | co (n : Fin 8)
  | jogPos (axis : Axis)
  | jogNeg (axis : Axis)
  | szeroSoft
  | mCool
  deriving DecidableEq

namespace Output

/-- The register whose low bit the output is to show. -/
def reg : Output → Reg
  | co n => .coreg n
  | jogPos axis => .jogPosReg axis
  | jogNeg axis => .jogNegReg axis
  | szeroSoft => .szeroSoftreg
  | mCool => .mCoolReg

/-- The low bit of the register after the reset. -/
def resetLevel : Output → Bool
  | co n => n < 4
  | _ => false

end Output

/-- The output that a command names, and the level that it asks for. -/
def named : Driver.Command → Option (Output × Bool)
  | .axis n on => some (.co n, on)
  | .jogPos k on => some (.jogPos k, on)
  | .jogNeg k on => some (.jogNeg k, on)
  | .return0 on => some (.szeroSoft, on)
  | .coolant on => some (.mCool, on)
  | _ => none

/-- The levels that calls have asked for on an output, in their order. -/
def asked (o : Output) (cmds : List (BitVec 32)) : List Bool :=
  cmds.filterMap fun cmd =>
    match (Driver.Command.ofCode cmd).bind named with
    | some (o', on) => if o' = o then some on else none
    | none => none

def expected (o : Output) (cmds : List (BitVec 32)) : Bool :=
  (asked o cmds).getLastD o.resetLevel

/-- The offset of a command is that of its register in double words, and in bytes it lies
in another register. -/
theorem offset_of_named {c : Driver.Command} {o : Output} {on : Bool} (h : named c = some (o, on)) :
    ∃ offset, c.writes = [(Driver.Command.level on, offset)] ∧ o.reg.byteAddress = 4 * offset ∧
      o.reg.byteAddress ≠ 4 * (offset / 4) := by
  cases c with
  | axis n _ | jogPos k _ | jogNeg k _ =>
      cases h
      refine ⟨_, rfl, ?_, ?_⟩
      · simp only [Output.reg, Reg.byteAddress]
        omega
      · simp only [Output.reg, Reg.byteAddress]
        omega
  | return0 _ | coolant _ =>
      cases h
      exact ⟨_, rfl, rfl, by decide⟩
  | _ => cases h

/-- How the host puts a write on the link. A write that crosses a double word is one
packet or two. -/
structure Host where
  base : BitVec 32
  requester : BitVec 16
  tag : BitVec 8
  joined : Bool

namespace Host

variable (h : Host)

def word (data : BitVec 64) : RxWord := ⟨data, 0xFF, 0x02, true, false, false, false⟩

/-- Double words in pairs, the first in the low half. -/
def pairs : List Word → List RxWord
  | [] => []
  | [low] => [word (0#32 ++ low)]
  | low :: high :: rest => word (high ++ low) :: pairs rest

/-- A memory write with a header of three double words. -/
def packet (address : BitVec 32) (firstBe lastBe : BitVec 4) (payload : List Word) : Tlp :=
  let length : Word := 0x40000000 + BitVec.ofNat 32 payload.length
  let ids : Word := h.requester ++ h.tag ++ lastBe ++ firstBe
  if address.getLsbD 2 then
    ⟨word (ids ++ length), word (payload.headD 0 ++ address), pairs payload.tail⟩
  else
    ⟨word (ids ++ length), word (0#32 ++ address), pairs payload⟩

def iowrite32 (value : Word) (offset : Nat) : List Tlp :=
  let address := h.base + BitVec.ofNat 32 (4 * (offset / 4))
  let lane := offset % 4
  if lane = 0 then [h.packet address 0xF 0x0 [value]]
  else
    let low := value <<< (8 * lane)
    let high := value >>> (32 - 8 * lane)
    let lowBe : BitVec 4 := 0xF <<< lane
    let highBe : BitVec 4 := 0xF >>> (4 - lane)
    if h.joined then [h.packet address lowBe highBe [low, high]]
    else [h.packet address lowBe 0x0 [low], h.packet (address + 4) highBe 0x0 [high]]

def packets (cmds : List (BitVec 32)) : List Tlp :=
  cmds.flatMap fun cmd =>
    match Driver.cncIoctl cmd with
    | .ok writes => writes.flatMap fun w => h.iowrite32 w.1 w.2
    | .error _ => []

end Host

structure Board where
  core : PcieCore
  out : Output → Bool

/-- No block assigns an output. -/
def board (s : Board) (i : CoreInput) : Board where
  core := pcieCore s.core i
  out := s.out

/-- A run from the reset in which the packets of some calls, and no others, arrive up to
the cycle `done`, and in which `rxproc` has read all of them by then. -/
structure Session where
  cmds : List (BitVec 32)
  host : Host
  start : PcieCore
  powerUp : Output → Bool
  inp : Nat → CoreInput
  done : Nat
  arrived : log (fun t => (inp t).arrival.toList) done = (host.packets cmds).flatMap Tlp.words
  idle : (PcieCore.run start inp done).rx.core.preState = .idle
  empty : (PcieCore.run start inp done).rx.fifo.words = []

namespace Session

variable (x : Session)

def run : Nat → Board := trace board ⟨x.start.reset, x.powerUp⟩ x.inp

def Follows : Prop := ∀ o, (x.run x.done).out o = expected o x.cmds

theorem run_out (n : Nat) : (x.run n).out = x.powerUp := by
  induction n with
  | zero => rfl
  | succ n ih => exact ih

/-- The outputs follow the commands if and only if the last command to each output asks
for the level that it powers up with; so does the reset, where there is none. -/
theorem follows_iff (x : Session) :
    x.Follows ↔ ∀ o, x.powerUp o = expected o x.cmds := by
  rw [Follows, x.run_out]

/-- `AXIS5_ON` on a card whose outputs power up low. The offset of the command is that of
`mcmreg`, as bytes. -/
def axis5On : Session where
  cmds := [0x7805]
  host := ⟨0, 0, 0, false⟩
  start := .powerUp
  powerUp _ := false
  inp t :=
    { arrival := (((⟨0, 0, 0, false⟩ : Host).packets [0x7805]).flatMap Tlp.words)[t]?
      stale := ⟨0, 0, 0, false, false, false, false⟩
      extdfer := true
      dmardfifodw := 0
      busnum := 0
      devnum := 0
      txCred := BitVec.allOnes 36
      txStReady := true
      float := 0
      fifordempty := true
      appIntAck := false
      fiforddw := 0
      fifodqin := 0
      regs := TxInput.quiet.regs }
  done := 20
  arrived := by decide +kernel
  idle := by decide +kernel
  empty := by decide +kernel

theorem follows_axis5On_false : ¬ axis5On.Follows := by
  intro h
  have hco := h (.co 4)
  rw [axis5On.run_out] at hco
  have hexpected : expected (.co 4) axis5On.cmds = true := by decide +kernel
  rw [hexpected] at hco
  cases hco

end Session

end CncCard.Pcie
