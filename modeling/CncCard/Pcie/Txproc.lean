import CncCard.Clocked.Trace
import CncCard.Pcie.Registers

/-!
The transmit side `txproc`: memory-read completions, DMA writes and DMA reads share
one state machine, whose state selects what the registered outputs `txfifodq` and
`tx_st_valid` show in the next cycle. A run is a run between two resets.

The register selects are registered, so a bus write goes by the address of the cycle
before. The reset does not reach every register; the others keep what they held.
-/

namespace CncCard.Pcie
open Clocked

inductive TxState where
  | idle
  | memrdcpldhead1 | memrdcpldhead2 | memrdcpldwaitst1 | memrdcpldwaitst2 | memrdcplddatast1
  | memrdcplddone
  | dmawrwaitst1 | dmawrhead1 | dmawrhead2 | dmawrdatast1 | dmawrdatast2
  | dmawrwaitst3 | dmawrwaitst4 | dmawrwaitst5 | dmawrwaitst6 | dmawrwaitst7 | dmawrwaitst8
  | dmardwaitst1 | dmardwaitst2 | dmardhead1 | dmardhead2
  | dmardwaitst3 | dmardwaitst4 | dmardwaitst5 | dmardwaitst6
  /-- `MEMRDCPLDWAITST3` to `MEMRDCPLDWAITST7` and the codes from 31 on: never entered. -/
  | unused (code : Fin 38)
  deriving DecidableEq, Repr

inductive IntState where
  | intIdle | intEn | intAck1 | intDisable | intAck2
  deriving DecidableEq, Repr

/-- The registered comparisons with the flow-control credits `tx_cred`. -/
structure Credits where
  postheaden : Bool
  postdataen : Bool
  npheaden : Bool
  npdataen : Bool
  cpheaden : Bool
  cpdataen : Bool
  deriving DecidableEq

structure TxInput where
  memrdreq : Bool
  tag : BitVec 8
  busnum : BitVec 8
  reqid : BitVec 16
  tc : BitVec 3
  attrib : BitVec 2
  devnum : BitVec 5
  txCred : BitVec 36
  txStReady : Bool
  memsel1 : Bool
  dataWr : Bool
  extAdd : BitVec 22
  /-- The value on the bidirectional bus, which `txproc` does not drive. -/
  extdq : Word
  fifordempty : Bool
  appIntAck : Bool
  rxfifowr : Bool
  fiforddw : BitVec 9
  fifodqin : BitVec 64
  regs : RegInput

structure Txproc where
  preState : TxState
  preState1 : IntState
  appIntSts : Bool
  regs : RegFile
  regsel : Reg → Bool
  wrFlag : Bool
  cnt : BitVec 2
  wrreq : Bool
  rdcountreg : Word
  clrcmd : Bool
  clrcmd1 : Bool
  clrfifo : Bool
  dmaen : Bool
  canntcross4k : BitVec 13
  cross4klength : BitVec 9
  fifodwlength : BitVec 9
  ctlength : BitVec 9
  bytelength : BitVec 9
  dmardtag : BitVec 8
  dmardcpldtag : BitVec 12
  dmarden : Bool
  credits : Credits
  memrdcpheadrega : BitVec 64
  memrdcpheadregb : BitVec 64
  memrdcpdatareg : BitVec 64
  txfifodq : BitVec 72
  txStErr : Bool
  txStValid : Bool
  memrdack : Bool
  fiford : Bool

/-- All inputs low and the credits at their maximum. -/
def TxInput.quiet : TxInput where
  memrdreq := false
  tag := 0
  busnum := 0
  reqid := 0
  tc := 0
  attrib := 0
  devnum := 0
  txCred := BitVec.allOnes 36
  txStReady := true
  memsel1 := false
  dataWr := false
  extAdd := 0
  extdq := 0
  fifordempty := true
  appIntAck := false
  rxfifowr := false
  fiforddw := 0
  fifodqin := 0
  regs := ⟨false, false, fun _ => 0, fun _ => 0, fun _ => 0, fun _ => false, 0, true⟩

def Credits.sample (txCred : BitVec 36) : Credits where
  postheaden := decide (3 ≤ txCred.extractLsb 2 0)
  postdataen := decide (0x00C ≤ txCred.extractLsb 14 3)
  npheaden := decide (2 ≤ txCred.extractLsb 17 15)
  npdataen := decide (2 ≤ txCred.extractLsb 20 18)
  cpheaden := decide (2 ≤ txCred.extractLsb 23 21)
  cpdataen := decide (0x004 ≤ txCred.extractLsb 35 24)

theorem Credits.sample_allOnes :
    Credits.sample (BitVec.allOnes 36) = ⟨true, true, true, true, true, true⟩ := by
  decide

namespace Txproc

def reset (s : Txproc) : Txproc :=
  { s with
    preState := .idle
    preState1 := .intIdle
    regs := s.regs.reset
    wrFlag := false
    cnt := 0
    wrreq := false
    rdcountreg := 0x00000040
    dmardtag := 0
    dmardcpldtag := 0 }

def nxtState1 (s : Txproc) (i : TxInput) : IntState :=
  match s.preState1 with
  | .intIdle =>
      if (s.regs .intreg).getLsbD 0 && (s.regs .intreg).getLsbD 1 then .intEn else .intIdle
  | .intEn => if i.appIntAck then .intAck1 else .intEn
  | .intAck1 => if (s.regs .intreg).getLsbD 0 then .intAck1 else .intDisable
  | .intDisable => if i.appIntAck then .intAck2 else .intDisable
  | .intAck2 => .intIdle

def countDone (s : Txproc) : Bool := (s.regs .countreg).extractLsb 22 3 == 0

def startdmawr (s : Txproc) (i : TxInput) : Bool :=
  (s.regs .cmdreg).getLsbD 8 && !i.fifordempty

def nxtState (s : Txproc) (i : TxInput) : TxState :=
  match s.preState with
  | .idle =>
      if i.memrdreq then .memrdcpldhead1
      else if s.startdmawr i then .dmawrwaitst1
      else if (s.regs .cmdreg).getLsbD 9 && s.dmarden then .dmardwaitst1
      else .idle
  | .memrdcpldhead1 =>
      if s.credits.cpheaden && i.txStReady then .memrdcpldhead2 else .memrdcpldhead1
  | .memrdcpldhead2 =>
      if s.credits.cpdataen && i.txStReady then .memrdcpldwaitst1 else .memrdcpldhead2
  | .memrdcpldwaitst1 => .memrdcpldwaitst2
  | .memrdcpldwaitst2 => .memrdcplddatast1
  | .memrdcplddatast1 =>
      if s.credits.cpdataen && i.txStReady then .memrdcplddone else .memrdcplddatast1
  | .memrdcplddone => .idle
  | .dmawrwaitst1 => if s.credits.postheaden then .dmawrhead1 else .dmawrwaitst1
  | .dmawrhead1 => if i.txStReady then .dmawrhead2 else .dmawrhead1
  | .dmawrhead2 => if i.txStReady then .dmawrdatast1 else .dmawrhead2
  | .dmawrdatast1 => if i.txStReady then .dmawrdatast2 else .dmawrdatast1
  | .dmawrdatast2 =>
      if i.txStReady && s.countDone then .dmawrwaitst3
      else if i.txStReady then .dmawrdatast1
      else .dmawrdatast2
  | .dmawrwaitst3 => .dmawrwaitst4
  | .dmawrwaitst4 => .dmawrwaitst5
  | .dmawrwaitst5 => .dmawrwaitst6
  | .dmawrwaitst6 => .dmawrwaitst7
  | .dmawrwaitst7 => .dmawrwaitst8
  | .dmawrwaitst8 => .idle
  | .dmardwaitst1 => .dmardwaitst2
  | .dmardwaitst2 => if s.credits.npheaden then .dmardhead1 else .dmardwaitst2
  | .dmardhead1 => if i.txStReady then .dmardhead2 else .dmardhead1
  | .dmardhead2 =>
      if i.txStReady && s.rdcountreg.extractLsb 22 9 == 0 then .dmardwaitst3
      else if i.txStReady then .dmardwaitst2
      else .dmardhead2
  | .dmardwaitst3 => .dmardwaitst4
  | .dmardwaitst4 => .dmardwaitst5
  | .dmardwaitst5 => .dmardwaitst6
  | .dmardwaitst6 => .idle
  | .unused _ => .idle

/-- The selects see the address of one cycle, the write strobe that of the next. -/
def written (s : Txproc) (i : TxInput) (r : Reg) : Bool := i.dataWr && s.regsel r

def dmaWriteBeat (s : Txproc) (i : TxInput) : Bool :=
  (s.preState == .dmawrdatast1 || s.preState == .dmawrdatast2) && i.txStReady

def nxtHeadreg (s : Txproc) (i : TxInput) : Word :=
  let headreg := s.regs .headreg
  if s.written i .headreg then i.extdq
  else if s.dmaWriteBeat i then (headreg.extractLsb 31 3 + 1) ++ headreg.extractLsb 2 0
  else if s.preState = .dmardhead2 then (headreg.extractLsb 31 9 + 1) ++ headreg.extractLsb 8 0
  else headreg

def nxtCountreg (s : Txproc) (i : TxInput) : Word :=
  let countreg := s.regs .countreg
  if s.clrcmd then 0x00000040
  else if s.written i .countreg then i.extdq
  else if s.dmaWriteBeat i || i.rxfifowr then
    countreg.extractLsb 31 23 ++ (countreg.extractLsb 22 3 - 1) ++ countreg.extractLsb 2 0
  else countreg

def nxtRdcountreg (s : Txproc) (i : TxInput) : Word :=
  if s.clrcmd then 0x00000040
  else if s.written i .countreg then i.extdq
  else if s.preState = .dmardhead2 then
    s.rdcountreg.extractLsb 31 23 ++ (s.rdcountreg.extractLsb 22 9 - 1) ++
      s.rdcountreg.extractLsb 8 0
  else s.rdcountreg

def nxtCmdreg (s : Txproc) (i : TxInput) : Word :=
  let cmdreg := s.regs .cmdreg
  if s.clrcmd || s.clrcmd1 then cmdreg.extractLsb 31 16 ++ 0#16
  else if s.written i .cmdreg then i.extdq
  else cmdreg

def nxtRegs (s : Txproc) (i : TxInput) : RegFile
  | .headreg => s.nxtHeadreg i
  | .countreg => s.nxtCountreg i
  | .cmdreg => s.nxtCmdreg i
  | r => s.regs.clock i.regs (s.written i) i.extdq r

/-- The length of the next DMA write: at most 256 bytes, what the page, the count and
the data queue leave. -/
def nxtBytelength (s : Txproc) : BitVec 9 :=
  if s.ctlength ≤ s.cross4klength then
    if s.fifodwlength ≤ s.ctlength then s.fifodwlength else s.ctlength
  else if s.fifodwlength ≤ s.cross4klength then s.fifodwlength
  else s.cross4klength

def dmawrheadrega (s : Txproc) (i : TxInput) : BitVec 64 :=
  i.busnum ++ i.devnum ++ 0#3 ++ 0x00#8 ++ 0xFF#8 ++
    0x40#8 ++ 0x00#8 ++ 0#2 ++ 2#2 ++ 0#2 ++ 0#3 ++ s.bytelength.extractLsb 8 3 ++ 0#1

def dmawrheadregb (s : Txproc) : BitVec 64 :=
  0x00000000#32 ++ (s.regs .headreg).extractLsb 31 2 ++ 0#2

def dmardheadrega (s : Txproc) (i : TxInput) : BitVec 64 :=
  i.busnum ++ i.devnum ++ 0#3 ++ 0#3 ++ s.dmardtag.extractLsb 4 0 ++ 0xFF#8 ++
    0x00#8 ++ 0x00#8 ++ 0#2 ++ 2#2 ++ 0#2 ++ 0x080#10

def dmardheadregb (s : Txproc) : BitVec 64 :=
  0x00000000#32 ++ (s.regs .headreg).extractLsb 31 2 ++ 0#2

def nxtMemrdcpheadrega (i : TxInput) : BitVec 64 :=
  i.busnum ++ i.devnum ++ 0#3 ++ 0x0004#16 ++
    0x04A#9 ++ i.tc ++ 0x00#6 ++ i.attrib ++ 0#2 ++ 0x001#10

def nxtMemrdcpheadregb (i : TxInput) : BitVec 64 :=
  (if i.extAdd.getLsbD 2 then i.extdq else 0x00000000) ++
    i.reqid ++ i.tag ++ 0#1 ++ i.extAdd.extractLsb 6 0

/-- What the state shows on `txfifodq[71:0]`, where it shows a beat. -/
def beat (s : Txproc) (i : TxInput) : Option (BitVec 72) :=
  match s.preState with
  | .memrdcpldhead1 => some (0x00#8 ++ s.memrdcpheadrega)
  | .memrdcpldhead2 => some (0x00#8 ++ s.memrdcpheadregb)
  | .memrdcplddatast1 => some (0x00#8 ++ s.memrdcpdatareg)
  | .dmawrhead1 => some (0x00#8 ++ s.dmawrheadrega i)
  | .dmawrhead2 => some (0x00#8 ++ s.dmawrheadregb)
  | .dmawrdatast1 | .dmawrdatast2 => some (0xFF#8 ++ i.fifodqin)
  | .dmardhead1 => some (0x00#8 ++ s.dmardheadrega i)
  | .dmardhead2 => some (0x00#8 ++ s.dmardheadregb)
  | _ => none

end Txproc

open Txproc in
def txproc (s : Txproc) (i : TxInput) : Txproc where
  preState := s.nxtState i
  preState1 := s.nxtState1 i
  appIntSts := s.preState1 == .intEn || s.preState1 == .intAck1
  regs := s.nxtRegs i
  regsel := fun r => i.memsel1 && i.extAdd == r.address
  wrFlag := s.written i .pctocardreg
  cnt := if s.wrFlag && s.cnt == 0 then s.cnt + 1 else 0
  wrreq := s.wrFlag && s.cnt == 0
  rdcountreg := s.nxtRdcountreg i
  clrcmd := s.countDone
  clrcmd1 := s.rdcountreg.extractLsb 22 3 == 0
  clrfifo := (s.regs .cmdreg).getLsbD 31
  dmaen := (s.regs .cmdreg).getLsbD 30
  canntcross4k := 0x1000#13 - (0#1 ++ (s.regs .headreg).extractLsb 11 0)
  cross4klength := if 0x0200 ≤ s.canntcross4k then 0x100 else s.canntcross4k.extractLsb 8 0
  fifodwlength := if 0x020 ≤ i.fiforddw then 0x100 else i.fiforddw.extractLsb 5 0 ++ 0#3
  ctlength :=
    if 0x00100 ≤ (s.regs .countreg).extractLsb 22 0 then 0x100
    else (s.regs .countreg).extractLsb 8 0
  bytelength := if s.preState = .dmawrwaitst1 then s.nxtBytelength else s.bytelength
  dmardtag := if s.preState = .dmardhead2 then s.dmardtag + 1 else s.dmardtag
  dmardcpldtag := if i.rxfifowr then s.dmardcpldtag + 1 else s.dmardcpldtag
  dmarden :=
    !(s.dmardtag.getLsbD 3 != s.dmardcpldtag.getLsbD 9 &&
      s.dmardtag.extractLsb 2 0 == s.dmardcpldtag.extractLsb 8 6)
  credits := .sample i.txCred
  memrdcpheadrega := nxtMemrdcpheadrega i
  memrdcpheadregb := nxtMemrdcpheadregb i
  memrdcpdatareg :=
    if s.preState = .memrdcpldwaitst2 then 0x00000000#32 ++ i.extdq else s.memrdcpdatareg
  txfifodq := (s.beat i).getD 0
  txStErr := false
  txStValid := (s.beat i).isSome
  memrdack :=
    s.preState == .memrdcpldhead1 || s.preState == .memrdcpldhead2 ||
      s.preState == .memrdcplddatast1
  fiford := s.preState == .dmawrdatast1 || s.preState == .dmawrdatast2

namespace Txproc

/-- The registers of the device power up low. -/
def powerUp : Txproc where
  preState := .idle
  preState1 := .intIdle
  appIntSts := false
  regs := fun _ => 0
  regsel := fun _ => false
  wrFlag := false
  cnt := 0
  wrreq := false
  rdcountreg := 0
  clrcmd := false
  clrcmd1 := false
  clrfifo := false
  dmaen := false
  canntcross4k := 0
  cross4klength := 0
  fifodwlength := 0
  ctlength := 0
  bytelength := 0
  dmardtag := 0
  dmardcpldtag := 0
  dmarden := false
  credits := ⟨false, false, false, false, false, false⟩
  memrdcpheadrega := 0
  memrdcpheadregb := 0
  memrdcpdatareg := 0
  txfifodq := 0
  txStErr := false
  txStValid := false
  memrdack := false
  fiford := false

def run (s : Txproc) (inp : Nat → TxInput) : Nat → Txproc := trace txproc s.reset inp

variable (s : Txproc) (inp : Nat → TxInput)

theorem run_succ (t : Nat) : run s inp (t + 1) = txproc (run s inp t) (inp t) := rfl

theorem run_preState_succ (t : Nat) :
    (run s inp (t + 1)).preState = (run s inp t).nxtState (inp t) := rfl

end Txproc

end CncCard.Pcie
