import CncCard.Pcie.Header
import CncCard.Pcie.Txproc

/-!
`rxproc` and `txproc` as `PCIECORE` connects them: read requests and the header fields
of the request go one way, the acknowledge the other, and both sit on the bus `extdq`,
which nobody drives while `rxproc` does not write.
-/

namespace CncCard.Pcie
open Clocked

structure PcieCore where
  rx : RxPath
  tx : Txproc

structure CoreInput where
  arrival : Option RxWord
  stale : RxWord
  extdfer : Bool
  dmardfifodw : BitVec 9
  busnum : BitVec 8
  devnum : BitVec 5
  txCred : BitVec 36
  txStReady : Bool
  /-- What the bus shows while nobody drives it. -/
  float : Word
  fifordempty : Bool
  appIntAck : Bool
  fiforddw : BitVec 9
  fifodqin : BitVec 64
  regs : RegInput

namespace PcieCore

def rxInput (s : PcieCore) (i : CoreInput) : RxPathInput where
  arrival := i.arrival
  stale := i.stale
  extdfer := i.extdfer
  memrdack := s.tx.memrdack
  dmardfifodw := i.dmardfifodw

def txInput (s : PcieCore) (i : CoreInput) : TxInput where
  memrdreq := s.rx.core.memrdrq
  tag := s.rx.core.tag
  busnum := i.busnum
  reqid := s.rx.core.reqid
  tc := s.rx.core.tc
  attrib := s.rx.core.attrib
  devnum := i.devnum
  txCred := i.txCred
  txStReady := i.txStReady
  memsel1 := s.rx.core.memsel1
  dataWr := s.rx.core.extWr
  extAdd := s.rx.core.extAdd
  extdq := s.rx.core.extdq.getD i.float
  fifordempty := i.fifordempty
  appIntAck := i.appIntAck
  rxfifowr := s.rx.core.dmardfifowr
  fiforddw := i.fiforddw
  fifodqin := i.fifodqin
  regs := i.regs

def reset (s : PcieCore) : PcieCore where
  rx := ⟨.empty, s.rx.core.reset⟩
  tx := s.tx.reset

end PcieCore

def pcieCore (s : PcieCore) (i : CoreInput) : PcieCore where
  rx := rxPath s.rx (s.rxInput i)
  tx := txproc s.tx (s.txInput i)

namespace PcieCore

def run (s : PcieCore) (inp : Nat → CoreInput) : Nat → PcieCore := trace pcieCore s.reset inp

variable (s : PcieCore) (inp : Nat → CoreInput)

theorem run_succ (t : Nat) : run s inp (t + 1) = pcieCore (run s inp t) (inp t) := rfl

/-- From any cycle on, the receive side runs on the acknowledge of the transmit side. -/
theorem run_rx_add (a k : Nat) :
    (run s inp (a + k)).rx =
      trace rxPath (run s inp a).rx
        (fun j => (run s inp (a + j)).rxInput (inp (a + j))) k := by
  induction k with
  | zero => rfl
  | succ k ih => rw [trace_succ, ← ih]; rfl

end PcieCore

end CncCard.Pcie
