import CncCard.Driver.Write
import CncCard.Refill.Card
import CncCard.Transition.System

/-!
The handler `cnc_interrupt`, the link and the card. The register offsets of the driver
count double words here. The handler excludes itself by `dev->lock`, and since the line
is shared it may be called at any time. Writes are posted: the handler goes on while
they are on their way, but nothing on the link overtakes an earlier access, so a read
finds every write before it done. A read of `INTCSR` is taken to return the register.
-/

namespace CncCard.Refill
open Pcie Transition

def register (offset : Nat) : Target := ⟨true, BitVec.ofNat 22 (4 * offset)⟩

def iowrite32 (value : Word) (offset : Nat) : Access := .write (register offset) value

def ioread32 (offset : Nat) : Access := .read (register offset)

/-- The writes of `data_send`, by whether it finds the buffer full. -/
def dataSend (full : Bool) (dataBuf : Int → Word) : List Access :=
  if full then (Driver.words dataBuf 0 Driver.bufSize).map (iowrite32 · Driver.pctocard) else []

/-- The writes of `cnc_interrupt` behind its read. -/
def cncInterrupt (status : Word) (full : Bool) (dataBuf : Int → Word) : List Access :=
  if status ≠ 0x00000003 then []
  else iowrite32 0x00000000 Driver.intcsr ::
    (dataSend full dataBuf ++ [iowrite32 0x00000002 Driver.intcsr])

/-- Where the handler is: the read is on its way, it has returned, or the writes are
being posted. -/
inductive Handler where
  | idle
  | reading
  | read (status : Word)
  | writing (todo : List Access)
  deriving DecidableEq

structure System where
  handler : Handler
  link : List Access
  card : Card

/-- `other` is an access of another call of the driver. -/
inductive Event where
  | clock (i : CardInput)
  | enter
  | test (full : Bool) (dataBuf : Int → Word)
  | post
  | other (a : Access)

namespace System

def clock (s : System) (i : CardInput) : System where
  handler := if s.card.bus.answers i.bus then .read s.card.intreg else s.handler
  link := if s.card.bus.takes i.bus then s.link.tail else s.link
  card := s.card.clock s.link.head? i

def put (s : System) (a : Access) : System := { s with link := s.link ++ [a] }

end System

def step (s : System) : Event → Option System
  | .clock i => some (s.clock i)
  | .enter =>
      match s.handler with
      | .idle => some { s.put (ioread32 Driver.intcsr) with handler := .reading }
      | _ => none
  | .test full dataBuf =>
      match s.handler with
      | .read status => some { s with handler := .writing (cncInterrupt status full dataBuf) }
      | _ => none
  | .post =>
      match s.handler with
      | .writing [] => some { s with handler := .idle }
      | .writing (a :: todo) => some { s.put a with handler := .writing todo }
      | _ => none
  | .other a => if a.foreign then some (s.put a) else none

theorem step_cases {s s' : System} {e : Event} (h : step s e = some s') :
    (∃ i, e = .clock i ∧ s' = s.clock i) ∨
    (e = .enter ∧ s.handler = .idle ∧
      s' = { s.put (ioread32 Driver.intcsr) with handler := .reading }) ∨
    (∃ status full dataBuf, e = .test full dataBuf ∧ s.handler = .read status ∧
      s' = { s with handler := .writing (cncInterrupt status full dataBuf) }) ∨
    (e = .post ∧ s.handler = .writing [] ∧ s' = { s with handler := .idle }) ∨
    (∃ a todo, e = .post ∧ s.handler = .writing (a :: todo) ∧
      s' = { s.put a with handler := .writing todo }) ∨
    (∃ a, e = .other a ∧ a.foreign = true ∧ s' = s.put a) := by
  cases e with
  | clock i =>
      cases h
      exact .inl ⟨i, rfl, rfl⟩
  | enter =>
      cases hhandler : s.handler with
      | idle =>
          simp only [step, hhandler, Option.some.injEq] at h
          exact .inr (.inl ⟨rfl, rfl, h.symm⟩)
      | _ => simp [step, hhandler] at h
  | test full dataBuf =>
      cases hhandler : s.handler with
      | read status =>
          simp only [step, hhandler, Option.some.injEq] at h
          exact .inr (.inr (.inl ⟨status, full, dataBuf, rfl, rfl, h.symm⟩))
      | _ => simp [step, hhandler] at h
  | post =>
      cases hhandler : s.handler with
      | writing todo =>
          cases todo with
          | nil =>
              simp only [step, hhandler, Option.some.injEq] at h
              exact .inr (.inr (.inr (.inl ⟨rfl, rfl, h.symm⟩)))
          | cons a todo =>
              simp only [step, hhandler, Option.some.injEq] at h
              exact .inr (.inr (.inr (.inr (.inl ⟨a, todo, rfl, rfl, h.symm⟩))))
      | _ => simp [step, hhandler] at h
  | other a =>
      simp only [step] at h
      split at h
      · next hforeign =>
          cases h
          exact .inr (.inr (.inr (.inr (.inr ⟨a, rfl, hforeign, rfl⟩))))
      · cases h

/-- After `probe`: its two writes are on the link, and the card is as its reset left it. -/
def initial (tx : Txproc) (q : Word) : System where
  handler := .idle
  link := [iowrite32 0x00000002 Driver.intcsr, iowrite32 0x00000000 Driver.pctocard]
  card :=
    { bus := .resting
      ext := .reset
      tx := tx.reset
      fifo33 := ⟨.empty, q⟩ }

def Reachable (s : System) : Prop := ∃ tx q, Reach step anyEvent (initial tx q) s

/-- What the handler posts is what the interrupt of the write path sends. -/
theorem io_cncInterrupt {ι : Type} (status : Word) (s : Driver.State ι) :
    (Driver.cncInterrupt status s).dev.io.map (fun a => iowrite32 a.2 a.1) =
      s.dev.io.map (fun a => iowrite32 a.2 a.1) ++
        cncInterrupt status (s.dev.currentBufNum = Driver.bufSize) s.dev.dataBuf := by
  unfold Driver.cncInterrupt cncInterrupt
  split
  · simp
  · by_cases hfull : s.dev.currentBufNum = Driver.bufSize
    · simp [Driver.dataSend, dataSend, Driver.iowrite32, hfull]
    · simp [Driver.dataSend, dataSend, Driver.iowrite32, hfull]

end CncCard.Refill
