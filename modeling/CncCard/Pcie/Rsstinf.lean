import CncCard.Clocked.Log
import CncCard.Clocked.Trace
import Mathlib.Data.BitVec

/-!
The receive port `rsstinf`: it packs the beats of the Avalon-ST port into the words of
the receive queue. The packed word is registered, the write request is not, so a
request writes what the port carried one cycle before it.
-/

namespace CncCard.Pcie
open Clocked

structure RxSt where
  bardec : BitVec 8
  be : BitVec 8
  data : BitVec 64
  eop : Bool
  err : Bool
  sop : Bool
  valid : Bool
  deriving DecidableEq

/-- The word of the receive queue that holds a beat. -/
def RxSt.pack (i : RxSt) : BitVec 96 :=
  0x000#12 ++ BitVec.ofBool i.eop ++ BitVec.ofBool i.sop ++ BitVec.ofBool i.err ++
    BitVec.ofBool i.valid ++ i.bardec ++ i.be ++ i.data

structure RsstinfInput where
  rxSt : RxSt
  fifoalfull : Bool

structure Rsstinf where
  fifodqreg : BitVec 96
  ledReg : Bool

namespace Rsstinf

def reset : Rsstinf := ⟨0, false⟩

def rxStMask : Bool := false
def rxStReady (i : RsstinfInput) : Bool := !i.fifoalfull
def fifodq (s : Rsstinf) : BitVec 96 := s.fifodqreg
def fifowr (i : RsstinfInput) : Bool := i.rxSt.valid
def led (s : Rsstinf) : Bool := s.ledReg

end Rsstinf

def rsstinf (s : Rsstinf) (i : RsstinfInput) : Rsstinf where
  fifodqreg := i.rxSt.pack
  ledReg := s.ledReg || i.rxSt.valid

namespace Rsstinf

def run (inp : Nat → RsstinfInput) : Nat → Rsstinf := trace rsstinf reset inp

def written (inp : Nat → RsstinfInput) : Nat → List (BitVec 96) :=
  log fun t => if fifowr (inp t) then [(run inp t).fifodq] else []

/-- What the original description of the port writes in a cycle: the beat of that cycle. -/
def original (i : RsstinfInput) : List (BitVec 96) :=
  if i.rxSt.valid then [i.rxSt.pack] else []

def packed (inp : Nat → RsstinfInput) : Nat → List (BitVec 96) := log fun t => original (inp t)

variable (inp : Nat → RsstinfInput)

theorem pack_valid (i : RxSt) : i.pack.getLsbD 80 = i.valid := by
  simp only [RxSt.pack]
  iterate 6 rw [BitVec.getLsbD_append]
  cases i.valid <;> rfl

theorem run_fifodq_valid (t : Nat) (h : ∀ k < t, (inp k).rxSt.valid = false) :
    (run inp t).fifodq.getLsbD 80 = false := by
  cases t with
  | zero => simp [run, fifodq, reset]
  | succ t =>
      have hword : (run inp (t + 1)).fifodq = (inp t).rxSt.pack := rfl
      rw [hword, pack_valid, h t (Nat.lt_succ_self t)]

theorem written_silent {n : Nat} (h : ∀ t < n, (inp t).rxSt.valid = false) :
    written inp n = [] :=
  log_eq_nil fun t ht => by simp [fifowr, h t ht]

theorem packed_silent {n : Nat} (h : ∀ t < n, (inp t).rxSt.valid = false) :
    packed inp n = [] :=
  log_eq_nil fun t ht => by simp [original, h t ht]

/-- The first valid beat is written as what was on the port before it. -/
theorem written_ne_packed {t : Nat} (hsilent : ∀ k < t, (inp k).rxSt.valid = false)
    (hvalid : (inp t).rxSt.valid = true) : written inp (t + 1) ≠ packed inp (t + 1) := by
  intro heq
  rw [written, packed, log_succ, log_succ, ← written, ← packed, written_silent inp hsilent,
    packed_silent inp hsilent] at heq
  have hword : (run inp t).fifodq = (inp t).rxSt.pack := by
    simpa [fifowr, original, hvalid] using heq
  have hbit := run_fifodq_valid inp t hsilent
  rw [hword, pack_valid, hvalid] at hbit
  cases hbit

/-- The queue receives the beats of the port in exactly the runs without a valid beat. -/
theorem packs_iff_silent :
    (∀ n, written inp n = packed inp n) ↔ ∀ t, (inp t).rxSt.valid = false := by
  constructor
  · intro hpacks t
    induction t using Nat.strong_induction_on with
    | _ t ih =>
        by_contra hvalid
        rw [Bool.not_eq_false] at hvalid
        exact written_ne_packed inp ih hvalid (hpacks (t + 1))
  · intro hsilent n
    rw [written_silent inp fun t _ => hsilent t, packed_silent inp fun t _ => hsilent t]

/-- A single beat in the first cycle behind the reset: the queue gets the word 0. -/
theorem packs_firstBeat_false :
    ¬ ∀ n, written (fun t => ⟨⟨0, 0, 1, false, false, true, t == 0⟩, false⟩) n =
      packed (fun t => ⟨⟨0, 0, 1, false, false, true, t == 0⟩, false⟩) n := by
  intro hpacks
  exact written_ne_packed _ (fun k hk => absurd hk (Nat.not_lt_zero k)) rfl (hpacks 1)

end Rsstinf

end CncCard.Pcie
