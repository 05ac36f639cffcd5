import CncCard.Clocked.Level
import CncCard.Pcie.Stream

/-!
The queue of the DMA reads behind `rxproc`. It holds 256 words and the two thresholds
that `rxproc` compares its fill with are 496 and 508: the receiver never waits for it.
-/

namespace CncCard.Pcie
open Clocked

/-- `rxproc` with the queue `fifo3` that takes the words of its completions. -/
structure DmaQueue where
  rx : RxPath
  fifo : Fifo (BitVec 64) 256

structure DmaQueueInput where
  rx : RxPathInput
  drained : Bool

namespace DmaQueue

/-- The fill of the queue is exact. -/
def rxInput (s : DmaQueue) (i : DmaQueueInput) : RxPathInput :=
  { i.rx with dmardfifodw := BitVec.ofNat 9 s.fifo.words.length }

def wrreq (s : DmaQueue) : Option (BitVec 64) :=
  if s.rx.core.dmardfifowr then some s.rx.core.rx.data else none

end DmaQueue

def dmaQueue (s : DmaQueue) (i : DmaQueueInput) : DmaQueue where
  rx := rxPath s.rx (s.rxInput i)
  fifo := s.fifo.clock s.wrreq i.drained

namespace DmaQueue

def run (start : RxPath) (inp : Nat → DmaQueueInput) : Nat → DmaQueue :=
  trace dmaQueue ⟨start, .empty⟩ inp

def Contained (r : Nat → DmaQueue) : Prop :=
  ∀ t, (r t).rx.core.dmardfifowr = true → (r t).fifo.words.length < 256

/-- The receiver on the same arrivals, told that the queue is empty. -/
def unthrottled (start : RxPath) (inp : Nat → DmaQueueInput) : Nat → RxPath :=
  trace rxPath start fun t => { (inp t).rx with dmardfifodw := 0 }

/-- The cycles in which it moves a word. -/
def transfers (start : RxPath) (inp : Nat → DmaQueueInput) (t : Nat) : Bool :=
  (unthrottled start inp t).core.dmardfifowr

theorem not_lt_fill {n : Nat} (h : n ≤ 256) (threshold : BitVec 9)
    (hhigh : 256 ≤ threshold.toNat) : ¬ threshold < BitVec.ofNat 9 n := by
  have hfill : (BitVec.ofNat 9 n).toNat = n := by
    rw [BitVec.toNat_ofNat]
    omega
  rw [BitVec.lt_def, hfill]
  omega

/-- No fill of the queue reaches a threshold. -/
theorem rxPath_unthrottled (s : RxPath) (i : RxPathInput) {n : Nat} (h : n ≤ 256) :
    rxPath s { i with dmardfifodw := BitVec.ofNat 9 n } =
      rxPath s { i with dmardfifodw := 0 } := by
  have hstate : s.core.nxtState (s.rxInput { i with dmardfifodw := BitVec.ofNat 9 n }) =
      s.core.nxtState (s.rxInput { i with dmardfifodw := 0 }) := by
    unfold Rxproc.nxtState RxPath.rxInput
    cases s.core.preState with
    | cplddatast1 =>
        have hzero : ¬ (0x1F0 : BitVec 9) < 0 := by decide
        simp only [not_lt_fill h 0x1F0 (by decide), hzero]
    | cpldwaitst9 =>
        have hzero : ¬ (0x1FC : BitVec 9) < 0 := by decide
        simp only [not_lt_fill h 0x1FC (by decide), hzero]
    | _ => rfl
  simp only [rxPath, rxproc, hstate]
  rfl

variable (start : RxPath) (inp : Nat → DmaQueueInput)

theorem run_rx (t : Nat) : (run start inp t).rx = unthrottled start inp t := by
  induction t with
  | zero => rfl
  | succ t ih =>
      have hstep : (run start inp (t + 1)).rx = rxPath (run start inp t).rx
          { (inp t).rx with
            dmardfifodw := BitVec.ofNat 9 (run start inp t).fifo.words.length } := rfl
      rw [hstep, rxPath_unthrottled _ _ (run start inp t).fifo.bounded, ih]
      rfl

theorem wrreq_isSome (t : Nat) :
    (run start inp t).wrreq.isSome = transfers start inp t := by
  rw [wrreq, transfers, ← run_rx]
  split
  · next hwr => rw [hwr]; rfl
  · next hwr => rw [Bool.not_eq_true] at hwr; rw [hwr]; rfl

theorem contained_iff_stretches : Contained (run start inp) ↔
    ∀ a t, a ≤ t → during (transfers start inp) a (t + 1) ≤
      256 + during (fun k => (inp k).drained) (a + 1) t := by
  have haccepts := Fifo.accepts_iff (fun t => (run start inp t).fifo)
    (fun t => (run start inp t).wrreq) (fun t => (inp t).drained) (fun _ => rfl) rfl
  simp only [wrreq_isSome] at haccepts
  rw [← haccepts, Contained]
  simp only [run_rx, transfers]

/-- The queue is never written when it is full if and only if in no stretch of cycles the
receiver, which nothing throttles, moves more than 256 words above those that are
drained strictly inside the stretch. -/
theorem contained_iff (start : RxPath) (inp : Nat → DmaQueueInput) :
    Contained (run start inp) ↔
      ∀ a t, a ≤ t → during (transfers start inp) a (t + 1) ≤
        256 + during (fun k => (inp k).drained) (a + 1) t :=
  contained_iff_stretches start inp

/-- A completion of 512 words, one in each cycle. -/
def longCompletion (t : Nat) : RxPathInput where
  arrival :=
    if t = 0 then some ⟨0x000000004A000000, 0xFF, 0, true, false, true, false⟩
    else if t = 1 then some ⟨0x0000000001000000, 0xFF, 0, true, false, false, false⟩
    else if t < 514 then some ⟨BitVec.ofNat 64 t, 0xFF, 0, true, false, false, t == 513⟩
    else none
  stale := ⟨0, 0, 0, false, false, false, false⟩
  extdfer := true
  memrdack := false
  dmardfifodw := 0

def idlePath : RxPath :=
  ⟨.empty,
    ⟨.idle, ⟨0, 0, 0, false, false, false, false⟩, 0, 0, 0, 0, 0, false, false, false⟩⟩

def undrained (t : Nat) : DmaQueueInput := ⟨longCompletion t, false⟩

theorem moved_undrained : during (transfers idlePath undrained) 10 (266 + 1) = 257 := by
  apply during_always
  decide +kernel

/-- The 257th word in a row finds the queue full. -/
theorem contained_undrained_false : ¬ Contained (run idlePath undrained) := by
  intro h
  have hstretch := (contained_iff_stretches _ _).mp h 10 266 (by omega)
  have hdrained : during (fun k => (undrained k).drained) (10 + 1) 266 = 0 := by
    simp [during, undrained]
  have hmoved := moved_undrained
  omega

end DmaQueue

end CncCard.Pcie
