import CncCard.Encoder.Channel
import CncCard.Handwheel.AxisSel
import CncCard.Handwheel.Credit
import CncCard.Handwheel.Divide
import CncCard.Handwheel.FsmHw

/-!
The hand wheel from its lines to the axes, as `hand_wheel` connects its parts: a filter for
each line, the period measurement, the queue with the multiplier, and the axis selection.
Whatever the lines do, the axes together get no more pulses than half the multiplier for each
change of a line, but for the changes of the axis.
-/

namespace CncCard
open Clocked

namespace FsmHw

variable (inp : Nat → FsmHwInput)

/-- Each edge stands for a change of one of the two lines, which are low behind the reset. -/
theorem during_dealSign_le (hA : (inp 0).aIn = false) (hB : (inp 0).bIn = false) (n : Nat) :
    during (fun k => (run inp k).dealSign) 0 (n + 3) ≤
      toggles (fun k => (inp k).aIn) n + toggles (fun k => (inp k).bIn) n := by
  induction n with
  | zero =>
      have hsecond : (run inp 2).dealSign = false := by
        change ((false ^^ (inp 0).aIn) || (false ^^ (inp 0).bIn)) = false
        rw [hA, hB]
        rfl
      have hfirst : (run inp 1).dealSign = false := rfl
      have hstart : (run inp 0).dealSign = false := rfl
      simp [during, Finset.sum_range_succ, hsecond, hfirst, hstart]
  | succ n ih =>
      rw [Nat.add_right_comm, during_succ _ (Nat.zero_le _), run_dealSign, toggles_succ,
        toggles_succ]
      have hone : (((inp n).aIn ^^ (inp (n + 1)).aIn) ||
          ((inp n).bIn ^^ (inp (n + 1)).bIn)).toNat ≤
          ((inp n).aIn ^^ (inp (n + 1)).aIn).toNat + ((inp n).bIn ^^ (inp (n + 1)).bIn).toNat := by
        cases (inp n).aIn ^^ (inp (n + 1)).aIn <;> cases (inp n).bIn ^^ (inp (n + 1)).bIn <;> decide
      omega

theorem during_wrreq_le (n : Nat) :
    during (fun k => (run inp k).wrreq) 0 (n + 1) ≤ during (fun k => (run inp k).dealSign) 0 n := by
  refine during_behind_le rfl (fun t hwr => ?_) n
  rw [run_succ, clock_wrreq, Bool.and_eq_true, beq_iff_eq, nextStateM_m2] at hwr
  exact hwr.1.1

end FsmHw

namespace HandWheel

theorem written_le (s : HandWheel) (inp : Nat → HandWheelInput) (n : Nat) :
    written s inp n ≤ during (fun k => (inp k).wrreq.isSome) 0 n := by
  rw [written, during, ← Finset.range_eq_Ico]
  apply Finset.sum_le_sum
  intro t _
  unfold Fifo.accepted
  cases (inp t).wrreq <;> split <;> simp

end HandWheel

structure Wheel where
  /-- `b2v_inst5`, the filter of `A_in1`. -/
  filterA : FilterEncode
  /-- `b2v_inst6`, the filter of `B_in1`. -/
  filterB : FilterEncode
  fsm : FsmHw
  puls : HandWheel
  axis : AxisSel

structure WheelInput where
  aIn : Bool
  bIn : Bool
  iX1 : Bool
  iX10 : Bool
  iX100 : Bool
  contact : Axis → Bool

/-- The multiplier that the switches stand for; they are closed when low. -/
def WheelInput.multiplier (i : WheelInput) : Nat :=
  if !i.iX1 then 2 else if !i.iX10 then 12 else if !i.iX100 then 32 else 0

namespace Wheel

def reset : Wheel :=
  ⟨.reset, .reset, .reset, ⟨.reset, ⟨.empty, 0⟩⟩, .reset⟩

def fsmInput (s : Wheel) : FsmHwInput where
  aIn := s.filterA.filter
  bIn := s.filterB.filter
  full := decide (s.puls.queue.words.length = 32)

def pulsInput (s : Wheel) (i : WheelInput) : HandWheelInput where
  wrreq := if s.fsm.wrreq then some s.fsm.data else none
  iX1 := i.iX1
  iX10 := i.iX10
  iX100 := i.iX100

def axisInput (s : Wheel) (i : WheelInput) : AxisSelInput where
  contact := i.contact
  p := s.puls.puls.pulsOut
  dirIn := s.fsm.dirOut

def clock (s : Wheel) (i : WheelInput) : Wheel where
  filterA := filterEncode s.filterA i.bIn
  filterB := filterEncode s.filterB i.aIn
  fsm := s.fsm.clock s.fsmInput
  puls := s.puls.step (s.pulsInput i)
  axis := s.axis.clock (s.axisInput i)

def run (inp : Nat → WheelInput) : Nat → Wheel := trace clock reset inp

/-- The switches keep standing for one multiplier, and the wheel stands still until that has
been taken over. -/
structure Prepared (inp : Nat → WheelInput) : Prop where
  x1 : ∀ t, (inp t).iX1 = (inp 0).iX1
  x10 : ∀ t, (inp t).iX10 = (inp 0).iX10
  x100 : ∀ t, (inp t).iX100 = (inp 0).iX100
  selected : (inp 0).multiplier ≠ 0
  still : ∀ t, t ≤ 128 → (inp t).aIn = (inp 0).aIn ∧ (inp t).bIn = (inp 0).bIn

/-- The changes of the two lines. -/
def turns (inp : Nat → WheelInput) (t : Nat) : Nat :=
  toggles (fun k => (inp k).bIn) t + toggles (fun k => (inp k).aIn) t

def pulses (r : Nat → Wheel) (t : Nat) : Nat :=
  ∑ ax, edges (fun k => (r k).axis.puls ax) (fun _ => true) 0 t

def reselections (r : Nat → Wheel) (t : Nat) : Nat :=
  during (changed fun k => (r k).axis.selected) 0 t

section Parts

variable (inp : Nat → WheelInput)

theorem run_filterA (t : Nat) :
    (run inp t).filterA = FilterEncode.run (fun k => (inp k).bIn) t := by
  have hstep (s : Wheel) (i : WheelInput) :
      (s.clock i).filterA = filterEncode s.filterA i.bIn := rfl
  exact trace_part (p := filterA) hstep t

theorem run_filterB (t : Nat) :
    (run inp t).filterB = FilterEncode.run (fun k => (inp k).aIn) t := by
  have hstep (s : Wheel) (i : WheelInput) :
      (s.clock i).filterB = filterEncode s.filterB i.aIn := rfl
  exact trace_part (p := filterB) hstep t

theorem run_fsm (t : Nat) :
    (run inp t).fsm = FsmHw.run (fun k => (run inp k).fsmInput) t := by
  have hstep (s : Wheel) (i : WheelInput) : (s.clock i).fsm = s.fsm.clock s.fsmInput := rfl
  exact trace_wired (p := fsm) hstep t

theorem run_puls (t : Nat) : (run inp t).puls =
    HandWheel.run reset.puls (fun k => (run inp k).pulsInput (inp k)) t := by
  have hstep (s : Wheel) (i : WheelInput) : (s.clock i).puls = s.puls.step (s.pulsInput i) := rfl
  exact trace_wired (p := puls) hstep t

theorem run_axis (t : Nat) : (run inp t).axis =
    AxisSel.run (fun k => (run inp k).axisInput (inp k)) t := by
  have hstep (s : Wheel) (i : WheelInput) : (s.clock i).axis = s.axis.clock (s.axisInput i) := rfl
  exact trace_wired (p := axis) hstep t

/-- `puls_hw` sees the queue and the switches. -/
theorem run_multiplier (t : Nat) : (run inp t).puls.puls = PulsHw.run
    (fun k => ⟨(run inp k).puls.queue.isEmpty, (run inp k).puls.queue.q, (inp k).iX1,
      (inp k).iX10, (inp k).iX100⟩) t := by
  have hstep (s : Wheel) (i : WheelInput) : (s.clock i).puls.puls = s.puls.puls.clock
      ⟨s.puls.queue.isEmpty, s.puls.queue.q, i.iX1, i.iX10, i.iX100⟩ := rfl
  exact trace_wired (p := fun s : Wheel => s.puls.puls) hstep t

end Parts

section Bound

variable (inp : Nat → WheelInput)

/-- The words that are written are no more than the changes of the lines 29 cycles before. -/
theorem wrreq_le (n : Nat) :
    during (fun k => (run inp k).fsm.wrreq) 0 (n + 4) ≤ turns inp (n - 23) := by
  have hdeal := FsmHw.during_dealSign_le (fun k => (run inp k).fsmInput) rfl rfl n
  have hwrite := FsmHw.during_wrreq_le (fun k => (run inp k).fsmInput) (n + 3)
  have hA := FilterEncode.toggles_filter_le (fun k => (inp k).bIn) n
  have hB := FilterEncode.toggles_filter_le (fun k => (inp k).aIn) n
  have hseenA : (fun k => (run inp k).fsmInput.aIn) =
      fun k => (FilterEncode.run (fun k => (inp k).bIn) k).filter := by
    funext k
    rw [fsmInput, run_filterA]
  have hseenB : (fun k => (run inp k).fsmInput.bIn) =
      fun k => (FilterEncode.run (fun k => (inp k).aIn) k).filter := by
    funext k
    rw [fsmInput, run_filterB]
  rw [hseenA, hseenB] at hdeal
  simp only [run_fsm, turns]
  exact (hwrite.trans hdeal).trans (Nat.add_le_add hA hB)

theorem written_le (n : Nat) :
    HandWheel.written reset.puls (fun k => (run inp k).pulsInput (inp k)) n ≤ turns inp n := by
  have hsome (k : Nat) : ((run inp k).pulsInput (inp k)).wrreq.isSome = (run inp k).fsm.wrreq := by
    unfold pulsInput
    cases (run inp k).fsm.wrreq <;> rfl
  have hle := HandWheel.written_le reset.puls (fun k => (run inp k).pulsInput (inp k)) n
  simp only [hsome] at hle
  have hmore : during (fun k => (run inp k).fsm.wrreq) 0 n ≤
      during (fun k => (run inp k).fsm.wrreq) 0 (n + 4) :=
    Finset.sum_le_sum_of_subset (Finset.Ico_subset_Ico_right (Nat.le_add_right n 4))
  have hturns : turns inp (n - 23) ≤ turns inp n :=
    Nat.add_le_add (toggles_mono _ (Nat.sub_le n 23)) (toggles_mono _ (Nat.sub_le n 23))
  exact ((hle.trans hmore).trans (wrreq_le inp n)).trans hturns

variable {inp}

theorem Prepared.turns_zero (h : Prepared inp) : turns inp 128 = 0 := by
  have hstill (x : WheelInput → Bool) (hx : ∀ t, t ≤ 128 → x (inp t) = x (inp 0)) :
      toggles (fun k => x (inp k)) 128 = 0 := by
    apply Finset.sum_eq_zero
    intro t ht
    have ht := Finset.mem_range.mp ht
    simp only [hx t (by omega), hx (t + 1) (by omega), Bool.xor_self]
    rfl
  rw [turns, hstill WheelInput.bIn fun t ht => (h.still t ht).2,
    hstill WheelInput.aIn fun t ht => (h.still t ht).1]

/-- Until the multiplier has been taken over the queue stays empty. -/
theorem Prepared.idle (h : Prepared inp) {t : Nat} (ht : t ≤ 128) :
    (run inp t).puls.queue.words = [] ∧ (run inp t).puls.puls.currStateF = .f0 := by
  induction t with
  | zero => exact ⟨rfl, rfl⟩
  | succ t ih =>
      obtain ⟨hempty, hstate⟩ := ih (Nat.le_of_succ_le ht)
      have hquiet : (run inp t).fsm.wrreq = false := by
        have hle := wrreq_le inp 124
        have hnone : turns inp (124 - 23) ≤ turns inp 128 :=
          Nat.add_le_add (toggles_mono _ (by omega)) (toggles_mono _ (by omega))
        rw [h.turns_zero] at hnone
        have hsum := Nat.le_zero.mp (hle.trans hnone)
        have hcycle := Finset.sum_eq_zero_iff.mp hsum t (Finset.mem_Ico.mpr ⟨Nat.zero_le t, ht⟩)
        exact Bool.toNat_eq_zero.mp hcycle
      constructor
      · have hwords : (run inp (t + 1)).puls.queue.words =
            (if (run inp t).puls.puls.rdreq then (run inp t).puls.queue.words.drop 1
              else (run inp t).puls.queue.words) ++
            (run inp t).puls.queue.accepted ((run inp t).pulsInput (inp t)).wrreq := rfl
        rw [hwords, pulsInput, hquiet, hempty, if_neg Bool.false_ne_true, Fifo.accepted_none]
        simp
      · have hnext : (run inp (t + 1)).puls.puls.currStateF =
            (run inp t).puls.puls.nextStateF (run inp t).puls.queue.isEmpty := rfl
        rw [hnext, PulsHw.nextStateF_f0]
        exact ⟨by rw [Fifo.isEmpty, hempty]; rfl, .inl hstate⟩

theorem streak_const (v : Bool) (t : Nat) : streak (fun _ => v) t = if v then t else 0 := by
  cases v with
  | false => cases t <;> rfl
  | true =>
      induction t with
      | zero => rfl
      | succ t ih => rw [streak, ih]; rfl

theorem Prepared.c0 (h : Prepared inp) {t : Nat} (ht : 127 ≤ t) :
    (run inp t).puls.puls.c0 = (inp 0).multiplier := by
  obtain ⟨n, rfl⟩ := Nat.exists_eq_add_of_le' ht
  rw [run_multiplier, PulsHw.run_c0, PulsHw.coefficient]
  simp only [h.x1, h.x10, h.x100, streak_const, WheelInput.multiplier]
  have hlong : 126 ≤ n + 126 := Nat.le_add_left _ _
  cases (inp 0).iX1 <;> cases (inp 0).iX10 <;> cases (inp 0).iX100 <;> simp

theorem Prepared.isMultiplier (h : Prepared inp) : IsMultiplier (inp 0).multiplier := by
  have hselected := h.selected
  revert hselected
  unfold WheelInput.multiplier IsMultiplier
  cases (inp 0).iX1 <;> cases (inp 0).iX10 <;> cases (inp 0).iX100 <;> decide

theorem Prepared.chosen (h : Prepared inp) : HandWheel.Selected (inp 0).multiplier reset.puls
    fun k => (run inp k).pulsInput (inp k) where
  idle := ⟨rfl, rfl, rfl, rfl, rfl, rfl, rfl, rfl⟩
  multiplier := h.isMultiplier
  selected t hwork := by
    rw [← run_puls] at hwork ⊢
    cases Nat.lt_or_ge t 127 with
    | inl hlt => exact absurd (h.idle (by omega)).2 hwork
    | inr hge => exact h.c0 hge

end Bound

/-- What the axes get: at most one of them a pulse at a time, the first one in the order whose
contact has been closed for 126 cycles, and together no more than the turns of the wheel
give. -/
structure Guided (r : Nat → Wheel) (inp : Nat → WheelInput) : Prop where
  contact : ∀ ax t, (r (t + 1)).axis.puls ax = true →
    Held (fun k => !(inp k).contact ax) 126 t ∧
      ∀ ax' ∈ AxisSel.before ax, ¬ Held (fun k => !(inp k).contact ax') 126 t
  alone : ∀ ax ax' t, (r t).axis.puls ax = true → (r t).axis.puls ax' = true → ax = ax'
  bounded : ∀ t, 2 * pulses r (t + 2) ≤
    (inp 0).multiplier * turns inp t + 2 * reselections r (t + 1)

theorem guided_of_prepared (inp : Nat → WheelInput) (h : Prepared inp) :
    Guided (run inp) inp where
  contact ax t hpuls := by
    rw [run_axis, AxisSel.run_puls] at hpuls
    exact (AxisSel.run_selected _ ax t).mp (selected_of_demux hpuls)
  alone ax ax' t hpuls hpuls' := by
    cases t with
    | zero => cases hpuls
    | succ t =>
        rw [run_axis, AxisSel.run_puls] at hpuls hpuls'
        exact Option.some.inj ((selected_of_demux hpuls).symm.trans (selected_of_demux hpuls'))
  bounded t := by
    have hpulses := h.chosen.pulses_le t
    have hwritten := Nat.mul_le_mul_left (inp 0).multiplier (written_le inp t)
    have haxes := AxisSel.pulses_le (fun k => (run inp k).axisInput (inp k)) (t + 1)
    simp only [← run_axis] at haxes
    simp only [← run_puls] at hpulses
    change pulses (run inp) (t + 2) ≤
      edges (fun k => (run inp k).puls.puls.pulsOut) (fun _ => true) 0 (t + 1) +
        reselections (run inp) (t + 1) at haxes
    omega

/-- The wheel goes on turning at 40 cycles from edge to edge, with the contacts of X1 and of the
axis X closed. -/
def turned (t : Nat) : WheelInput where
  aIn := decide (200 ≤ t ∧ (t - 200) % 160 < 80)
  bIn := decide (240 ≤ t ∧ (t - 240) % 160 < 80)
  iX1 := false
  iX10 := true
  iX100 := true
  contact ax := ax != .x

/-- The edges give entries and the entries give pulses. -/
theorem guided_turned : Guided (run turned) turned ∧ (run turned 267).puls.queue.words ≠ [] ∧
    (run turned 282).axis.puls .x = true ∧ (run turned 300).axis.puls .x = false ∧
    (run turned 320).axis.puls .x = true := by
  refine ⟨guided_of_prepared turned ⟨fun _ => rfl, fun _ => rfl, fun _ => rfl, by decide, ?_⟩,
    by decide +kernel, by decide +kernel, by decide +kernel, by decide +kernel⟩
  intro t ht
  have hlow (k : Nat) (hk : k ≤ 128) : (turned k).aIn = false ∧ (turned k).bIn = false :=
    ⟨decide_eq_false (by omega), decide_eq_false (by omega)⟩
  obtain ⟨ha, hb⟩ := hlow t ht
  obtain ⟨ha₀, hb₀⟩ := hlow 0 (Nat.zero_le _)
  exact ⟨ha.trans ha₀.symm, hb.trans hb₀.symm⟩

end Wheel

end CncCard
