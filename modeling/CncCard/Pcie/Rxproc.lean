import CncCard.Clocked.Fifo
import CncCard.Clocked.Trace
import Mathlib.Data.BitVec

/-!
The receive side: `rxproc` behind the show-ahead queue `fifo1`. A word of the queue
is registered once more before `rxproc` looks at it, so what a state sees on `rxdata`
was at the head of the queue one cycle earlier, before any pop of that cycle.
-/

namespace CncCard.Pcie
open Clocked

/-- A word of `fifo1`: the fields that `rsstinf` packs into 96 bits. -/
structure RxWord where
  data : BitVec 64
  be : BitVec 8
  bardec : BitVec 8
  valid : Bool
  err : Bool
  sop : Bool
  eop : Bool
  deriving DecidableEq

def RxWord.mark (w : RxWord) (sop eop : Bool) : RxWord := { w with sop := sop, eop := eop }

inductive RxState where
  | idle | rdhead1 | headpro1 | rdhead2 | headpro2 | waitst1
  | datast1 | datast2
  | memwrst1 | memwrst2 | memwrst3 | memwrst4
  | unsp1 | unsp2
  | memrdst1 | memrdst2 | memrdst3 | memrdst4
  | cpldwaitst1 | cplddatast1 | cpldwaitst6 | cpldwaitst7 | cpldwaitst8 | cpldwaitst9
  /-- The codes from 24 on. -/
  | unused (code : Fin 8)
  deriving DecidableEq, Repr

structure RxInput where
  rxdw : BitVec 10
  rxdq : RxWord
  extdfer : Bool
  memrdack : Bool
  dmardfifodw : BitVec 9

structure Rxproc where
  preState : RxState
  /-- `rxdata`, `rxbe`, `rxbardec`, `rxvalid`, `rxerr`, `rxsop` and `rxeop`. -/
  rx : RxWord
  headrega : BitVec 64
  headregb : BitVec 64
  dwlength : BitVec 10
  addr : BitVec 32
  extdqreg : BitVec 32
  dqoen : Bool
  memsel1 : Bool
  memsel2 : Bool

namespace Rxproc

def reset (s : Rxproc) : Rxproc :=
  { s with
    preState := .idle
    headrega := BitVec.allOnes 64
    headregb := 0
    dwlength := 0 }

section Decode

variable (s : Rxproc)

def type : BitVec 5 := s.headrega.extractLsb 28 24

/-- `fmt[1]`: the packet carries data. -/
def withData : Bool := s.headrega.getLsbD 30

def memrdsel : Bool := (s.type == 0b00000 || s.type == 0b00001) && !s.withData
def memwrsel : Bool := s.type == 0b00000 && s.withData
def cpldsel : Bool :=
  (s.type == 0b01010 || s.type == 0b01011) && s.withData && s.headrega.extractLsb 47 45 == 0b000

/-- `fmt[0]` is low: the header has three double words. -/
def dw3sel : Bool := !s.headrega.getLsbD 29

def extAdd : BitVec 22 := s.addr.extractLsb 21 2 ++ 0#2
def tag : BitVec 8 := s.headrega.extractLsb 47 40
def reqid : BitVec 16 := s.headrega.extractLsb 63 48
def attrib : BitVec 2 := s.headrega.extractLsb 13 12
def tc : BitVec 3 := s.headrega.extractLsb 21 19

/-- What `rxproc` drives on the bus `extdq`. -/
def extdq : Option (BitVec 32) := if s.dqoen then some s.extdqreg else none

def extWr : Bool := s.preState == .memwrst2 || s.preState == .memwrst3
def extRd : Bool := s.preState == .memrdst2 || s.preState == .memrdst3
def memrdrq : Bool := s.preState == .memrdst3
def fiford : Bool :=
  s.preState == .rdhead1 || s.preState == .datast1 || s.preState == .unsp1 ||
    s.preState == .cpldwaitst1 || s.preState == .cplddatast1
def dmardfifowr : Bool := s.preState == .cplddatast1

end Decode

def rxen (i : RxInput) : Bool := decide (0x002 ≤ i.rxdw)

def nxtState (s : Rxproc) (i : RxInput) : RxState :=
  match s.preState with
  | .idle => if rxen i && s.rx.sop then .rdhead1 else .idle
  | .rdhead1 => .headpro1
  | .headpro1 => .rdhead2
  | .rdhead2 => .headpro2
  | .headpro2 => .waitst1
  | .waitst1 =>
      if s.memwrsel && s.addr.getLsbD 2 && s.dw3sel then .datast2
      else if s.memwrsel then .datast1
      else if s.memrdsel then .memrdst1
      else if s.cpldsel then .cpldwaitst1
      else .unsp1
  | .unsp1 => if s.rx.eop then .idle else .unsp2
  | .unsp2 => .unsp1
  | .datast1 => .datast2
  | .datast2 => .memwrst1
  | .memwrst1 => .memwrst2
  | .memwrst2 => .memwrst3
  | .memwrst3 => if i.extdfer then .memwrst4 else .memwrst3
  | .memwrst4 => .unsp1
  | .memrdst1 => .memrdst2
  | .memrdst2 => .memrdst3
  | .memrdst3 => if i.memrdack then .memrdst4 else .memrdst3
  | .memrdst4 => .unsp1
  | .cpldwaitst1 => .cplddatast1
  | .cplddatast1 =>
      if s.rx.eop then .idle
      else if i.rxdw < 0x004 || 0x1F0 < i.dmardfifodw then .cpldwaitst6
      else .cplddatast1
  | .cpldwaitst6 => .cpldwaitst7
  | .cpldwaitst7 => .cpldwaitst8
  | .cpldwaitst8 => .cpldwaitst9
  | .cpldwaitst9 => if 0x1FC < i.dmardfifodw then .cpldwaitst9 else .cplddatast1
  | .unused _ => .idle

end Rxproc

def rxproc (s : Rxproc) (i : RxInput) : Rxproc where
  preState := s.nxtState i
  rx := i.rxdq
  headrega := if s.preState = .rdhead1 then s.rx.data else s.headrega
  headregb := if s.preState = .rdhead2 then s.rx.data else s.headregb
  dwlength :=
    if s.preState = .rdhead1 then s.rx.data.extractLsb 9 0
    else if s.preState = .cplddatast1 then
      (s.dwlength.extractLsb 9 1 - 1) ++ s.dwlength.extractLsb 0 0
    else s.dwlength
  addr :=
    (if s.dw3sel then s.headregb.extractLsb 31 2 else s.headregb.extractLsb 63 34) ++ 0#2
  extdqreg :=
    if s.preState = .datast2 then
      if s.addr.getLsbD 2 && s.dw3sel then s.rx.data.extractLsb 63 32
      else s.rx.data.extractLsb 31 0
    else s.extdqreg
  dqoen := s.preState == .memwrst1 || s.preState == .memwrst2 || s.preState == .memwrst3
  memsel1 := if s.preState = .rdhead2 then s.rx.bardec.getLsbD 1 else s.memsel1
  memsel2 := if s.preState = .rdhead2 then s.rx.bardec.getLsbD 2 else s.memsel2

/-- `rxproc` with its queue. -/
structure RxPath where
  fifo : Fifo RxWord 1024
  core : Rxproc

/-- What comes from outside. `stale` is what the queue shows while it is empty. -/
structure RxPathInput where
  arrival : Option RxWord
  stale : RxWord
  extdfer : Bool
  memrdack : Bool
  dmardfifodw : BitVec 9

namespace RxPath

def rxInput (s : RxPath) (i : RxPathInput) : RxInput where
  rxdw := BitVec.ofNat 10 s.fifo.words.length
  rxdq := s.fifo.words.headD i.stale
  extdfer := i.extdfer
  memrdack := i.memrdack
  dmardfifodw := i.dmardfifodw

end RxPath

def rxPath (s : RxPath) (i : RxPathInput) : RxPath where
  fifo := s.fifo.clock i.arrival s.core.fiford
  core := rxproc s.core (s.rxInput i)

end CncCard.Pcie
