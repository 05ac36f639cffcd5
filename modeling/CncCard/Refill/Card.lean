import CncCard.Pcie.Bus
import CncCard.Pcie.Txproc

/-!
The card as the driver sees it: `ext_inf`, `txproc` and `fifo33` on the bus, all on one
clock.
-/

namespace CncCard.Refill
open Clocked Pcie

structure Card where
  bus : Bus
  ext : ExtInf
  tx : Txproc
  fifo33 : RegFifo Word 2048

/-- `tx` is what `txproc` reads besides the bus and `ext_int_req`. -/
structure CardInput where
  bus : BusInput
  valid : Bool
  rdreq : Bool
  tx : TxInput

namespace Card

def almostEmpty (c : Card) : Bool := decide (c.fifo33.words.length < 200)

def extIntReq (c : Card) (i : CardInput) : Bool := ExtInf.extIntReq c.almostEmpty i.valid

def wrreq (c : Card) : Option Word := if c.ext.wrreq then some c.ext.fifoIn else none

/-- `INTCSR`, as a read finds it. -/
def intreg (c : Card) : Word := c.tx.regs .intreg

def txInput (c : Card) (i : CardInput) : TxInput :=
  { i.tx with
    memsel1 := (c.bus.shows i.bus).memsel1
    dataWr := c.bus.dataWr
    extAdd := (c.bus.shows i.bus).extAdd
    extdq := c.bus.extdq i.bus
    regs := { i.tx.regs with extIntReq := c.extIntReq i } }

/-- One clock edge; `head` is the access that waits first. -/
def clock (c : Card) (head : Option Access) (i : CardInput) : Card where
  bus := c.bus.next head i.bus
  ext := extInf c.ext (c.bus.extInput i.bus)
  tx := txproc c.tx (c.txInput i)
  fifo33 := c.fifo33.clock c.wrreq i.rdreq

end Card

end CncCard.Refill
