import CncCard.Motion.Exactness
import CncCard.Panel.Debouncer

/-!
The pulse counters of the card, which the host reads back: `pctocard_count` counts the
rising edges of the pulses of an axis, whatever their direction. For X, Y and Z these are
the pulses of `dda`, for A those that leave `sel_assign`, so that A counts manual pulses as
well. All four are cleared by the key `renew_count`.
-/

namespace CncCard
open Clocked

structure PctocardCount where
  plusTt : Bool
  plusT : Bool
  cardCount : BitVec 32

namespace PctocardCount

def reset : PctocardCount := ⟨false, false, 0⟩

def plusFlag (s : PctocardCount) : Bool := !s.plusTt && s.plusT

end PctocardCount

structure PctocardInput where
  plus : Bool
  /-- No register reads it. -/
  dir : Bool
  renew : Bool

def pctocardCount (s : PctocardCount) (i : PctocardInput) : PctocardCount where
  plusT := i.plus
  plusTt := s.plusT
  cardCount :=
    if i.renew then 0
    else if s.plusFlag then s.cardCount + 1
    else s.cardCount

namespace PctocardCount

variable (r : Nat → PctocardCount) (inp : Nat → PctocardInput)
  (hrun : ∀ t, r (t + 1) = pctocardCount (r t) (inp t))
include hrun

/-- The flag comes up in the cycle after the edge. -/
theorem run_plusFlag {t : Nat} (ht : 0 < t) :
    (r (t + 1)).plusFlag = rose (fun k => (inp k).plus) t := by
  obtain ⟨k, rfl⟩ := Nat.exists_eq_succ_of_ne_zero (Nat.ne_of_gt ht)
  rw [plusFlag, hrun (k + 1), pctocardCount, hrun k, pctocardCount, rose]

/-- Without a clear the counter goes on by the edges. -/
theorem run_cardCount {a b : Nat} (ha : 0 < a) (hab : a ≤ b)
    (hkept : ∀ k, a < k → k ≤ b → (inp k).renew = false) :
    (r (b + 1)).cardCount = (r (a + 1)).cardCount +
      BitVec.ofNat 32 (edges (fun k => (inp k).plus) (fun _ => true) a b) := by
  induction b, hab using Nat.le_induction with
  | base => rw [edges_self, BitVec.add_zero]
  | succ b hab ih =>
      have hbefore := ih fun k hak hkb => hkept k hak (Nat.le_succ_of_le hkb)
      have hflag := run_plusFlag r inp hrun (Nat.lt_of_lt_of_le ha hab)
      rw [edges_succ _ _ hab, BitVec.ofNat_add, ← BitVec.add_assoc, ← hbefore,
        hrun (b + 1), pctocardCount, hkept (b + 1) (Nat.lt_succ_of_le hab) (Nat.le_refl _),
        if_neg Bool.false_ne_true, hflag, Bool.and_true]
      cases rose (fun k => (inp k).plus) b with
      | false => simp
      | true => simp

end PctocardCount

/-- The motion path with its counters and the key that clears them. -/
structure CountedPath where
  path : MotionPath
  keyRenew : Debouncer
  card : Axis → PctocardCount

structure CountedInput where
  motion : MotionInput
  renewCount : Bool

namespace CountedPath

/-- What the counter of an axis is connected to. -/
def cardInput (s : CountedPath) (i : CountedInput) (ax : Axis) : PctocardInput where
  plus := match ax with
    | .a => s.path.puls i.motion .a
    | ax => (s.path.dda.lane ax).interp.q
  dir := match ax with
    | .a => !s.path.dir i.motion .a
    | ax => (s.path.dda.lane ax).dirReg
  renew := s.keyRenew.flag

def clock (s : CountedPath) (i : CountedInput) : CountedPath where
  path := s.path.clock i.motion
  keyRenew := s.keyRenew.clock i.renewCount
  card ax := pctocardCount (s.card ax) (s.cardInput i ax)

def start (fifo33 : RegFifo Command 2048) (fifo31 : RegFifo (BitVec 64) 2048) : CountedPath :=
  ⟨MotionPath.start fifo33 fifo31, .powerUp, fun _ => .reset⟩

def run (fifo33 : RegFifo Command 2048) (fifo31 : RegFifo (BitVec 64) 2048)
    (inp : Nat → CountedInput) : Nat → CountedPath := trace clock (start fifo33 fifo31) inp

variable (fifo33 : RegFifo Command 2048) (fifo31 : RegFifo (BitVec 64) 2048)
  (inp : Nat → CountedInput)

theorem run_path (t : Nat) : (run fifo33 fifo31 inp t).path =
    MotionPath.run fifo33 fifo31 (fun k => (inp k).motion) t :=
  trace_part (p := CountedPath.path) (fun _ _ => rfl) t

theorem run_keyRenew (t : Nat) : (run fifo33 fifo31 inp t).keyRenew =
    Debouncer.run (fun k => (inp k).renewCount) t :=
  trace_part (p := CountedPath.keyRenew) (fun _ _ => rfl) t

/-- The rising edges that the counter of an axis sees. -/
def seen (r : Nat → CountedPath) (inp : Nat → CountedInput) (ax : Axis) (a b : Nat) : Nat :=
  edges (fun t => ((r t).cardInput (inp t) ax).plus) (fun _ => true) a b

variable {inp} in
theorem run_card (ax : Axis) {a b : Nat} (ha : 0 < a) (hab : a ≤ b)
    (hkept : ∀ k, a < k → k ≤ b → ¬ Held (fun k => (inp k).renewCount) 126 k) :
    ((run fifo33 fifo31 inp (b + 1)).card ax).cardCount =
      ((run fifo33 fifo31 inp (a + 1)).card ax).cardCount +
        BitVec.ofNat 32 (seen (run fifo33 fifo31 inp) inp ax a b) := by
  have hrun (t : Nat) : (run fifo33 fifo31 inp (t + 1)).card ax = pctocardCount
      ((run fifo33 fifo31 inp t).card ax) ((run fifo33 fifo31 inp t).cardInput (inp t) ax) := rfl
  refine PctocardCount.run_cardCount (fun t => (run fifo33 fifo31 inp t).card ax)
    (fun t => (run fifo33 fifo31 inp t).cardInput (inp t) ax) hrun ha hab ?_
  intro k hak hkb
  have hflag := hkept k hak hkb
  rw [← Debouncer.run_flag, ← run_keyRenew fifo33 fifo31] at hflag
  exact Bool.eq_false_iff.mpr hflag

/-- The counters in a run: the key clears them, and as long as it has not been held the
counters of X, Y and Z go on by the pulses of `dda` and the one of A by what leaves the card,
the manual pulses included. -/
structure Counts (r : Nat → CountedPath) (inp : Nat → CountedInput) : Prop where
  cleared : ∀ ax t, Held (fun k => (inp k).renewCount) 126 t →
    ((r (t + 1)).card ax).cardCount = 0
  program : ∀ ax, ax ≠ .a → ∀ a b, 0 < a → a ≤ b →
    (∀ k, a < k → k ≤ b → ¬ Held (fun k => (inp k).renewCount) 126 k) →
    ((r (b + 1)).card ax).cardCount = ((r (a + 1)).card ax).cardCount +
      BitVec.ofNat 32 (edges (fun t => ((r t).path.dda.lane ax).interp.q) (fun _ => true) a b)
  axisA : ∀ a b, 0 < a → a ≤ b →
    (∀ k, a < k → k ≤ b → ¬ Held (fun k => (inp k).renewCount) 126 k) →
    ((r (b + 1)).card .a).cardCount = ((r (a + 1)).card .a).cardCount +
      BitVec.ofNat 32 (edges (fun t => (r t).path.puls (inp t).motion .a) (fun _ => true) a b)

theorem counts (fifo33 : RegFifo Command 2048) (fifo31 : RegFifo (BitVec 64) 2048)
    (inp : Nat → CountedInput) : Counts (run fifo33 fifo31 inp) inp where
  cleared ax t hheld := by
    rw [← Debouncer.run_flag, ← run_keyRenew fifo33 fifo31] at hheld
    exact if_pos hheld
  program ax hax a b ha hab hkept := by
    rw [run_card fifo33 fifo31 ax ha hab hkept]
    cases ax with
    | a => exact absurd rfl hax
    | _ => rfl
  axisA _ _ ha hab hkept := run_card fifo33 fifo31 .a ha hab hkept

theorem sum_map_eq (f : Command → Nat) (ws : List Command) :
    (ws.map f).sum = ∑ k ∈ Finset.range ws.length, f (ws.getD k 0) := by
  induction ws with
  | nil => rfl
  | cons w ws ih =>
      rw [List.length_cons, Finset.sum_range_succ', List.map_cons, List.sum_cons, ih,
        Nat.add_comm]
      rfl

/-- Interpolation is enabled, nothing is written and the key is open. -/
def running : CountedInput := ⟨.enabled, false⟩

end CountedPath

end CncCard
