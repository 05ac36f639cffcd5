import Mathlib.Data.BitVec
import Mathlib.Logic.Function.Basic

/-!
The application layer of the EtherCAT slave: its state machine `al_statemachine`, the
handlers that start and stop the mailbox and the process data, and the registers of the
slave controller that only the program writes. What the master or the clock unit puts
into the controller comes in with each call.
-/

namespace CncCard.EtherCat

/-- What `get_sm` reads of a sync manager and the program keeps. -/
structure SyncMan where
  smPhysicalAddr : BitVec 16
  smLength : BitVec 16

/-- The controller registers a call reads that the program does not write. -/
structure EscRegs where
  processDataOut : SyncMan
  processDataIn : SyncMan
  /-- The activation register of the clock unit, 0x0981. -/
  dcControl : BitVec 8

def stateMask : BitVec 8 := 0x0F
def stateError : BitVec 8 := 0x10
def stateErrack : BitVec 16 := 0x10

@[match_pattern] def stateInit : BitVec 8 := 0x01#8
@[match_pattern] def statePreop : BitVec 8 := 0x02#8
@[match_pattern] def stateSafeop : BitVec 8 := 0x04#8
@[match_pattern] def stateOp : BitVec 8 := 0x08#8

@[match_pattern] def init2Init : BitVec 8 := 0x11#8
@[match_pattern] def init2Preop : BitVec 8 := 0x12#8
@[match_pattern] def init2Safeop : BitVec 8 := 0x14#8
@[match_pattern] def init2Op : BitVec 8 := 0x18#8
@[match_pattern] def preop2Init : BitVec 8 := 0x21#8
@[match_pattern] def preop2Preop : BitVec 8 := 0x22#8
@[match_pattern] def preop2Safeop : BitVec 8 := 0x24#8
@[match_pattern] def preop2Op : BitVec 8 := 0x28#8
@[match_pattern] def safeop2Init : BitVec 8 := 0x41#8
@[match_pattern] def safeop2Preop : BitVec 8 := 0x42#8
@[match_pattern] def safeop2Safeop : BitVec 8 := 0x44#8
@[match_pattern] def safeop2Op : BitVec 8 := 0x48#8
@[match_pattern] def op2Init : BitVec 8 := 0x81#8
@[match_pattern] def op2Preop : BitVec 8 := 0x82#8
@[match_pattern] def op2Safeop : BitVec 8 := 0x84#8
@[match_pattern] def op2Op : BitVec 8 := 0x88#8

def processOutputEvent : BitVec 16 := 0x0400
def processInputEvent : BitVec 16 := 0x0800
def sync0Event : BitVec 16 := 0x0400
def sync1Event : BitVec 16 := 0x0800
def dcEventMask : BitVec 16 := 0x0002
def dcSync0Active : BitVec 8 := 0x02
def dcSync1Active : BitVec 8 := 0x04
def smPdidisable : BitVec 8 := 0x01

def alstatuscodeNoerror : BitVec 8 := 0x00
def alstatuscodeInvalidalcontrol : BitVec 8 := 0x11
def alstatuscodeUnknownalcontrol : BitVec 8 := 0x12
def alstatuscodeInvalidmbxcfginpre : BitVec 8 := 0x16
def noerrorNostatechange : BitVec 8 := 0xFE

/-- The channels of the sync managers. -/
def mailboxWrite : Fin 4 := 0
def mailboxRead : Fin 4 := 1
def processDataOut : Fin 4 := 2
def processDataIn : Fin 4 := 3

structure Slave where
  nAlStatus : BitVec 8
  nAlStatusFailed : BitVec 8
  nAlStatusCode : BitVec 16
  maxsyncman : BitVec 8
  nPdInputSize : BitVec 16
  nPdOutputSize : BitVec 16
  nEscAddrOutputData : BitVec 16
  nEscAddrInputData : BitVec 16
  mbxrunning : Bool
  pdooutrun : Bool
  pdoinrun : Bool
  bEscIntEnabled : Bool
  bEcatLocalError : Bool
  bEcatOutputUpdateRunning : Bool
  bDcSyncActive : Bool
  /-- Controller register 0x0130. -/
  alStatus : BitVec 16
  /-- Controller register 0x0134. -/
  alStatusCode : BitVec 16
  /-- Controller register 0x0204. -/
  alEventMask : BitVec 16
  /-- The PDI control byte of each sync manager, 0x0807 and so on in steps of 8. -/
  pdictl : Fin 4 → BitVec 8

namespace EscRegs

/-- The clock unit is set to signal on a sync line. -/
def syncs (r : EscRegs) : Bool := r.dcControl &&& (dcSync0Active ||| dcSync1Active) != 0

/-- The events that `pdo_startinputhandler` lets through. -/
def startMask (r : EscRegs) : BitVec 16 :=
  (if r.syncs then dcEventMask else 0) |||
    if r.processDataOut.smLength ≠ 0 then processOutputEvent else processInputEvent

end EscRegs

namespace Slave

def setIntmask (s : Slave) (intMask : BitVec 16) : Slave :=
  { s with alEventMask := s.alEventMask ||| intMask }

def resetIntmask (s : Slave) (intMask : BitVec 16) : Slave :=
  { s with alEventMask := s.alEventMask &&& intMask }

@[simp] def enableSyncmanchannel (s : Slave) (channel : Fin 4) : Slave :=
  { s with pdictl := Function.update s.pdictl channel (s.pdictl channel &&& ~~~smPdidisable) }

@[simp] def disableSyncmanchannel (s : Slave) (channel : Fin 4) : Slave :=
  { s with pdictl := Function.update s.pdictl channel (s.pdictl channel ||| smPdidisable) }

def setAlStatus (s : Slave) (alstatus : BitVec 8) (alstatuscode : BitVec 8) : Slave :=
  { s with
    alStatus := alstatus.setWidth 16
    alStatusCode := if alstatuscode = 0xFF then s.alStatusCode else alstatuscode.setWidth 16 }

/-- The settings are accepted whatever they are. -/
def checksmsettings (_maxChannel : BitVec 8) : BitVec 8 := 0

@[simp] def mbxStartmailboxhandler (s : Slave) : BitVec 8 × Slave :=
  (0, { (s.enableSyncmanchannel mailboxWrite).enableSyncmanchannel mailboxRead with
        mbxrunning := true })

def pdoStartinputhandler (r : EscRegs) (s : Slave) : BitVec 8 × Slave :=
  let s := { s with
    nEscAddrOutputData := r.processDataOut.smPhysicalAddr
    nPdOutputSize := r.processDataOut.smLength
    nEscAddrInputData := r.processDataIn.smPhysicalAddr
    nPdInputSize := r.processDataIn.smLength }
  if r.processDataIn.smLength = 0 then (alstatuscodeNoerror, s)
  else
    let intMask := if r.syncs then dcEventMask else 0
    let s := if r.syncs then { s with bDcSyncActive := true } else s
    let intMask :=
      intMask ||| if s.nPdOutputSize ≠ 0 then processOutputEvent else processInputEvent
    let s :=
      if 0 < s.nPdInputSize then
        { s.enableSyncmanchannel EtherCat.processDataIn with pdoinrun := true }
      else s
    let s :=
      if 0 < s.nPdOutputSize then
        let s :=
          if s.bEcatLocalError then s else s.enableSyncmanchannel EtherCat.processDataOut
        { s with pdooutrun := true }
      else s
    (0, s.setIntmask intMask)

def pdoStartoutputhandler (s : Slave) : BitVec 8 × Slave :=
  let s :=
    if 0 < s.nPdOutputSize then
      let s :=
        if s.bEcatLocalError then
          { s.enableSyncmanchannel EtherCat.processDataOut with bEcatLocalError := false }
        else s
      { s with pdooutrun := true }
    else s
  (0, { s with bEcatOutputUpdateRunning := true })

@[simp] theorem pdoStartinputhandler_eq (r : EscRegs) (s : Slave) :
    s.pdoStartinputhandler r = (0,
      { s with
        nEscAddrOutputData := r.processDataOut.smPhysicalAddr
        nPdOutputSize := r.processDataOut.smLength
        nEscAddrInputData := r.processDataIn.smPhysicalAddr
        nPdInputSize := r.processDataIn.smLength
        pdoinrun := s.pdoinrun || r.processDataIn.smLength != 0
        pdooutrun := s.pdooutrun ||
          (r.processDataIn.smLength != 0 && r.processDataOut.smLength != 0)
        bDcSyncActive := s.bDcSyncActive || (r.processDataIn.smLength != 0 && r.syncs)
        alEventMask :=
          if r.processDataIn.smLength = 0 then s.alEventMask
          else s.alEventMask ||| r.startMask
        pdictl :=
          if r.processDataIn.smLength = 0 then s.pdictl
          else if r.processDataOut.smLength = 0 ∨ s.bEcatLocalError then
            (s.enableSyncmanchannel EtherCat.processDataIn).pdictl
          else ((s.enableSyncmanchannel EtherCat.processDataIn).enableSyncmanchannel
            EtherCat.processDataOut).pdictl }) := by
  by_cases hin : r.processDataIn.smLength = 0#16
  · simp [pdoStartinputhandler, hin, alstatuscodeNoerror]
  · by_cases hout : r.processDataOut.smLength = 0#16 <;> cases hsync : r.syncs <;>
      cases hlocal : s.bEcatLocalError <;>
      simp [pdoStartinputhandler, BitVec.pos_iff_ne_zero, hin, hout, hsync, hlocal,
        EscRegs.startMask, setIntmask]

@[simp] theorem pdoStartoutputhandler_eq (s : Slave) :
    s.pdoStartoutputhandler = (0,
      { s with
        pdooutrun := s.pdooutrun || s.nPdOutputSize != 0
        bEcatLocalError := s.bEcatLocalError && s.nPdOutputSize == 0
        bEcatOutputUpdateRunning := true
        pdictl :=
          if s.nPdOutputSize ≠ 0 ∧ s.bEcatLocalError then
            (s.enableSyncmanchannel EtherCat.processDataOut).pdictl
          else s.pdictl }) := by
  by_cases hout : s.nPdOutputSize = 0#16 <;> cases hlocal : s.bEcatLocalError <;>
    simp [pdoStartoutputhandler, BitVec.pos_iff_ne_zero, hout, hlocal]

@[simp] def mbxStopmailboxhandler (s : Slave) : Slave :=
  ({ s with mbxrunning := false }.disableSyncmanchannel mailboxWrite).disableSyncmanchannel
    mailboxRead

def pdoStopinputhandler (s : Slave) : BitVec 8 × Slave :=
  let s := (s.disableSyncmanchannel EtherCat.processDataOut).resetIntmask
    (~~~(sync0Event ||| sync1Event ||| processInputEvent ||| processOutputEvent))
  (0, { s with bEscIntEnabled := false, pdoinrun := false }.disableSyncmanchannel
        EtherCat.processDataIn)

@[simp] def pdoStopoutputhandler (s : Slave) : BitVec 8 × Slave :=
  (0, { s with bEcatOutputUpdateRunning := false })

/-- The cases that fall through from `pdo_stopinputhandler` to `pdo_stopoutputhandler`. -/
def stopInput (s : Slave) : BitVec 8 × Slave :=
  let (result, s) := s.pdoStopinputhandler
  if result ≠ 0 then (result, s) else s.pdoStopoutputhandler

@[simp] theorem stopInput_eq (s : Slave) :
    s.stopInput = (0,
      { s with
        bEscIntEnabled := false
        pdoinrun := false
        bEcatOutputUpdateRunning := false
        alEventMask := s.alEventMask &&&
          ~~~(sync0Event ||| sync1Event ||| processInputEvent ||| processOutputEvent)
        pdictl := ((s.disableSyncmanchannel EtherCat.processDataOut).disableSyncmanchannel
          EtherCat.processDataIn).pdictl }) := by
  simp only [stopInput, pdoStopinputhandler, pdoStopoutputhandler, ne_eq, not_true_eq_false,
    if_false, resetIntmask, disableSyncmanchannel]

/-- The first `switch` on the transition. -/
def checkTransition (s : Slave) (statetrans : BitVec 8) : BitVec 8 :=
  match statetrans with
  | init2Preop | op2Preop | safeop2Preop | preop2Preop => checksmsettings 2
  | preop2Safeop | safeop2Op | op2Safeop | safeop2Safeop | op2Op => checksmsettings s.maxsyncman
  | _ => 0

/-- The second one, taken when the settings are in order. -/
def changeState (r : EscRegs) (s : Slave) (statetrans : BitVec 8) : BitVec 8 × Slave :=
  match statetrans with
  | init2Preop => s.mbxStartmailboxhandler
  | preop2Safeop => s.pdoStartinputhandler r
  | safeop2Op => s.pdoStartoutputhandler
  | op2Init | safeop2Init | preop2Init => s.mbxStopmailboxhandler.stopInput
  | op2Preop | safeop2Preop => s.stopInput
  | op2Safeop => s.pdoStopoutputhandler
  | init2Init | preop2Preop | safeop2Safeop | op2Op => (noerrorNostatechange, s)
  | init2Safeop | init2Op | preop2Op => (alstatuscodeInvalidalcontrol, s)
  | _ => (alstatuscodeUnknownalcontrol, s)

/-- What `al_statemachine` does when the settings are not in order. -/
def settingsFailed (s : Slave) (result : BitVec 8) : Slave :=
  let back (s : Slave) : Slave :=
    if result = alstatuscodeInvalidmbxcfginpre then
      { s.mbxStopmailboxhandler with nAlStatus := stateInit }
    else { s with nAlStatus := statePreop }
  match s.nAlStatus with
  | stateOp => s.pdoStopoutputhandler.2
  | stateSafeop => back s.pdoStopinputhandler.2
  | statePreop => back s
  | _ => s

/-- The end of `al_statemachine`: the new status and its code. -/
def updateStatus (s : Slave) (result alcontrolvar : BitVec 8) : Slave :=
  if alcontrolvar ≠ s.nAlStatus &&& stateMask then
    if result ≠ 0 then
      let s := { s with
        nAlStatusFailed := s.nAlStatus
        nAlStatus := s.nAlStatus ||| stateError }
      { s.setAlStatus s.nAlStatus result with nAlStatusCode := 0 }
    else if s.nAlStatusCode ≠ 0 then
      let s := { s with
        nAlStatusFailed := alcontrolvar
        nAlStatus := alcontrolvar ||| stateError }
      { s.setAlStatus s.nAlStatus (s.nAlStatusCode.setWidth 8) with nAlStatusCode := 0 }
    else if alcontrolvar ≤ s.nAlStatusFailed then
      let s := { s with nAlStatus := alcontrolvar }
      { s.setAlStatus s.nAlStatus 0xFF with nAlStatusCode := 0 }
    else
      let s := { s with nAlStatusFailed := 0, nAlStatus := alcontrolvar }
      { s.setAlStatus s.nAlStatus 0 with nAlStatusCode := 0 }
  else s.setAlStatus s.nAlStatus 0xFF

/-- The part of `al_statemachine` behind its error check. -/
def request (r : EscRegs) (s : Slave) (alcontrolvar : BitVec 8) : Slave :=
  let statetrans := s.nAlStatus <<< 4 + alcontrolvar
  let result := s.checkTransition statetrans
  if result = 0 then
    let (result, s) := s.changeState r statetrans
    s.updateStatus result alcontrolvar
  else (s.settingsFailed result).updateStatus result alcontrolvar

def alStatemachine (r : EscRegs) (s : Slave) (alcontrolvar : BitVec 16) : Slave :=
  let al := alcontrolvar.setWidth 8 &&& stateMask
  if alcontrolvar &&& stateErrack ≠ 0 then
    { s with nAlStatus := s.nAlStatus &&& ~~~stateError }.request r al
  else if s.nAlStatus &&& stateError ≠ 0 ∧ s.nAlStatus &&& stateMask < al then s
  else s.request r al

/-- The globals before the program runs; the PDI control bytes are the controller's. -/
def powerOn (pdictl : Fin 4 → BitVec 8) : Slave where
  nAlStatus := 0
  nAlStatusFailed := 0
  nAlStatusCode := 0
  maxsyncman := 0
  nPdInputSize := 0
  nPdOutputSize := 0
  nEscAddrOutputData := 0
  nEscAddrInputData := 0
  mbxrunning := false
  pdooutrun := false
  pdoinrun := false
  bEscIntEnabled := false
  bEcatLocalError := true
  bEcatOutputUpdateRunning := false
  bDcSyncActive := false
  alStatus := 0
  alStatusCode := 0
  alEventMask := 0
  pdictl := pdictl

/-- `ECAT_init`, with the number of sync managers that it has read. The register test
before it leaves nothing that it does not overwrite. -/
def ecatInit (maxsyncman : BitVec 8) (s : Slave) : Slave :=
  let s := { s with alEventMask := 0, maxsyncman := maxsyncman, nAlStatus := stateInit }
  { s.setAlStatus s.nAlStatus 0 with
    nPdInputSize := 0
    nPdOutputSize := 0
    bEscIntEnabled := false }

end Slave

end CncCard.EtherCat
