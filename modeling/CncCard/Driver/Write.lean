import CncCard.Transition.System
import Mathlib.Logic.Function.Basic

/-!
The write path of the driver: any number of `cnc_write` calls, which exclude each
other by `dev->mutex`, and the interrupt handler, which runs between any two memory
accesses of a call. A call is a program counter over the accesses of its source;
`copy_from_user` stores one word per step.
-/

namespace CncCard.Driver

abbrev Word := BitVec 32

def bufSize : Nat := 1000

/-- Register offsets, as the driver adds them to `mem_addr`. -/
def intcsr : Nat := 0x01
def pctocard : Nat := 0x05

/-- The arguments of a call. The kernel cuts every request off at `MAX_RW_COUNT`, so
the word count of a request fits an `int`. -/
structure WriteCall where
  size : Nat
  data : Nat → Word
  nonblock : Bool
  size_le : size ≤ 0x7ffff000

inductive Ret where
  | bytes (n : Int)
  | eagain | eintr | erestartsys | efault
  deriving DecidableEq

inductive Pc where
  | entry | addWait | testFull | setState | unlockSleep | schedule | asleep
  | checkSignal | relock | loadCmp | loadClamp
  | loadDst (count : Int)
  | copy (count dst : Int) (i : Nat)
  | loadNum (count : Int)
  | storeNum (count num : Int)
  | unlock (ret : Ret)
  | removeWait (ret : Ret)
  | setRunning (ret : Ret)
  | done (ret : Ret)
  deriving DecidableEq

/-- A call with the state of its task: whether it is marked `TASK_INTERRUPTIBLE`,
whether it is in `w_wait` and whether a signal is pending. -/
structure Writer where
  pc : Pc
  interruptible : Bool
  waiting : Bool
  signal : Bool

/-- The device record as far as writes use it, with the log of `iowrite32` and the
words that calls have reported as accepted. -/
structure Dev (ι : Type) where
  dataBuf : Int → Word
  currentBufNum : Int
  mutex : Option ι
  io : List (Nat × Word)
  accepted : List Word

structure State (ι : Type) where
  dev : Dev ι
  writers : ι → Writer

variable {ι : Type}

def Dev.sent (d : Dev ι) : List Word :=
  d.io.filterMap fun a => if a.1 = pctocard then some a.2 else none

def words (buf : Int → Word) (base : Int) (n : Nat) : List Word :=
  (List.range n).map fun i : Nat => buf (base + i)

/-- `copy_from_user` cannot fail on no bytes, and a negative count is a byte count
beyond `INT_MAX` that it refuses without copying. -/
def copyStep (c : WriteCall) (count dst : Int) (i : Nat) (d : Dev ι) : Dev ι × Pc :=
  if count < 0 then (d, .unlock .efault)
  else if (i : Int) < count then
    ({ d with dataBuf := Function.update d.dataBuf (dst + i) (c.data i) },
      .copy count dst (i + 1))
  else (d, .loadNum count)

/-- A fault on word `i` leaves what was copied of it and zeroes the rest. -/
def copyFault (count dst : Int) (i : Nat) (part : Word) (d : Dev ι) : Dev ι :=
  { d with dataBuf := fun k =>
      if k = dst + i then part
      else if dst + i < k ∧ k < dst + count then 0
      else d.dataBuf k }

def Writer.goto (wr : Writer) (pc : Pc) : Writer := { wr with pc := pc }

/-- The next access of a call, where it has one: a call waits while the mutex is
taken and while it sleeps without a wake-up or a signal. -/
def writerStep (c : WriteCall) (w : ι) (d : Dev ι) (wr : Writer) : Option (Dev ι × Writer) :=
  match wr.pc with
  | .entry =>
      if d.mutex.isNone then some ({ d with mutex := some w }, wr.goto .addWait) else none
  | .addWait => some (d, { wr with waiting := true, pc := .testFull })
  | .testFull =>
      if d.currentBufNum = bufSize then
        some (d, wr.goto (if c.nonblock then .unlock .eagain else .setState))
      else some (d, wr.goto .loadCmp)
  | .setState => some (d, { wr with interruptible := true, pc := .unlockSleep })
  | .unlockSleep => some ({ d with mutex := none }, wr.goto .schedule)
  | .schedule =>
      if wr.interruptible && !wr.signal then some (d, wr.goto .asleep)
      else some (d, { wr with interruptible := false, pc := .checkSignal })
  | .asleep =>
      if wr.interruptible && !wr.signal then none
      else some (d, { wr with interruptible := false, pc := .checkSignal })
  | .checkSignal => some (d, wr.goto (if wr.signal then .removeWait .erestartsys else .relock))
  | .relock =>
      if d.mutex.isNone then some ({ d with mutex := some w }, wr.goto .loadCmp) else none
  | .loadCmp =>
      let count : Int := (c.size / 4 : Nat)
      some (d, wr.goto (if count > bufSize - d.currentBufNum then .loadClamp else .loadDst count))
  | .loadClamp => some (d, wr.goto (.loadDst (bufSize - d.currentBufNum)))
  | .loadDst count => some (d, wr.goto (.copy count d.currentBufNum 0))
  | .copy count dst i =>
      some ((copyStep c count dst i d).1, wr.goto (copyStep c count dst i d).2)
  | .loadNum count => some (d, wr.goto (.storeNum count d.currentBufNum))
  | .storeNum count num =>
      some ({ d with
        currentBufNum := num + count
        accepted := d.accepted ++ (List.range count.toNat).map c.data },
        wr.goto (.unlock (.bytes (count * 4))))
  | .unlock ret => some ({ d with mutex := none }, wr.goto (.removeWait ret))
  | .removeWait ret => some (d, { wr with waiting := false, pc := .setRunning ret })
  | .setRunning ret => some (d, { wr with interruptible := false, pc := .done ret })
  | .done _ => none

/-- `mutex_lock_interruptible` gives up on a pending signal. -/
def giveUp (wr : Writer) : Option Writer :=
  if wr.signal then
    match wr.pc with
    | .entry => some (wr.goto (.done .eintr))
    | .relock => some (wr.goto (.removeWait .eintr))
    | _ => none
  else none

def faultStep (part : Word) (d : Dev ι) (wr : Writer) : Option (Dev ι × Writer) :=
  match wr.pc with
  | .copy count dst i =>
      if (i : Int) < count then some (copyFault count dst i part d, wr.goto (.unlock .efault))
      else none
  | _ => none

/-- `wake_up_interruptible` on `w_wait`. -/
def Writer.wake (wr : Writer) : Writer :=
  { wr with interruptible := wr.interruptible && !wr.waiting }

def iowrite32 (value : Word) (offset : Nat) (d : Dev ι) : Dev ι :=
  { d with io := d.io ++ [(offset, value)] }

def dataSend (s : State ι) : State ι :=
  if s.dev.currentBufNum = bufSize then
    { dev := { s.dev with
        io := s.dev.io ++ (words s.dev.dataBuf 0 bufSize).map fun v => (pctocard, v)
        currentBufNum := 0 }
      writers := fun w => (s.writers w).wake }
  else s

def cncInterrupt (status : Word) (s : State ι) : State ι :=
  if status ≠ 0x00000003 then s
  else
    let s := { s with dev := iowrite32 0x00000000 intcsr s.dev }
    let s := dataSend s
    { s with dev := iowrite32 0x00000002 intcsr s.dev }

inductive Event (ι : Type) where
  | write (w : ι)
  | giveUp (w : ι)
  | fault (w : ι) (part : Word)
  | signal (w : ι)
  | interrupt (status : Word)

variable [DecidableEq ι]

def State.put (s : State ι) (w : ι) (r : Dev ι × Writer) : State ι :=
  ⟨r.1, Function.update s.writers w r.2⟩

def step (call : ι → WriteCall) (s : State ι) : Event ι → Option (State ι)
  | .write w => (writerStep (call w) w s.dev (s.writers w)).map (s.put w)
  | .giveUp w => (giveUp (s.writers w)).map fun wr => s.put w (s.dev, wr)
  | .fault w part => (faultStep part s.dev (s.writers w)).map (s.put w)
  | .signal w => some (s.put w (s.dev, { s.writers w with signal := true }))
  | .interrupt status => some (cncInterrupt status s)

/-- After `probe`: the record is zeroed and no call has started. The log begins
behind the two register writes of `probe` itself. -/
def initial : State ι where
  dev := ⟨fun _ => 0, 0, none, [], []⟩
  writers := fun _ => ⟨.entry, false, false, false⟩

/-- This event is an interrupt that finds the buffer full and sends it. -/
def Drains (s : State ι) (e : Event ι) : Prop :=
  e = .interrupt 0x00000003 ∧ s.dev.currentBufNum = bufSize

end CncCard.Driver
